import TreeWalk.Proofs.Eval.Frame
import TreeWalk.Proofs.Value.Matching

/-! From matching states, one tree evaluated in scopes that stand for each other prints the same,
comes to matching values or halts alike, and leaves matching states. -/
namespace TreeWalk

variable {hidden : String → Prop} {ρ ρ' : Pairing}

namespace Store

/-- The stores agree on the scopes that stand for each other. -/
structure Matches (hidden : String → Prop) (ρ : Pairing) (st st' : Store) : Prop where
  inRange : ∀ i j, ρ i j → i < st.scopes.size ∧ j < st'.scopes.size
  oneToOne : ∀ i j i' j', ρ i j → ρ i' j' → (i = i' ↔ j = j')
  chain : ∀ i j, ρ i j → List.Forall₂ ρ (st.chain i) (st'.chain j)
  builtins : ∀ i j, ρ i j → ∀ name, st.builtin? i name = st'.builtin? j name
  bindings : ∀ i j, ρ i j → ∀ name, ¬ hidden name →
    Option.Rel (Value.Matches hidden ρ) ((st.bindings i).get? name) ((st'.bindings j).get? name)

theorem builtin?_enclose (st : Store) (i : ScopeId) {j : ScopeId} (h : j < st.scopes.size)
    (name : String) : (st.enclose i).2.builtin? j name = st.builtin? j name := by
  rw [builtin?, builtin?, scopes_enclose st i h]

theorem builtin?_enclose_self (st : Store) {i : ScopeId} (h : i < st.scopes.size) (name : String) :
    (st.enclose i).2.builtin? st.scopes.size name = st.builtin? i name := by
  simp [builtin?, enclose, Array.getElem?_eq_getElem h]

variable {st st' : Store} {i j : ScopeId}

/-- Matching stores give matching values to a name that is not hidden. -/
theorem Matches.get? (h : Matches hidden ρ st st') (hij : ρ i j) {name : String}
    (hname : ¬ hidden name) :
    Option.Rel (Value.Matches hidden ρ) (st.get? i name) (st'.get? j name) := by
  have hfind {is js : List ScopeId} (hchain : List.Forall₂ ρ is js) :
      Option.Rel (Value.Matches hidden ρ) (is.findSome? fun k => (st.bindings k).get? name)
        (js.findSome? fun k => (st'.bindings k).get? name) := by
    induction hchain with
    | nil => exact .none
    | @cons a b is js hab _ ih =>
      have hnear := h.bindings a b hab name hname
      simp only [List.findSome?_cons]
      cases hleft : (st.bindings a).get? name with
      | none =>
        rw [hleft] at hnear
        cases hright : (st'.bindings b).get? name with
        | none => exact ih
        | some w =>
          rw [hright] at hnear
          cases hnear
      | some v =>
        rw [hleft] at hnear
        cases hright : (st'.bindings b).get? name with
        | none =>
          rw [hright] at hnear
          cases hnear
        | some w =>
          rw [hright] at hnear
          exact hnear
  exact hfind (h.chain i j hij)

theorem Matches.bind (h : Matches hidden ρ st st') (hij : ρ i j) (name : String) {v w : Value}
    (hvw : Value.Matches hidden ρ v w) :
    Matches hidden ρ (st.bind i name v) (st'.bind j name w) := by
  have hrange := h.inRange i j hij
  refine ⟨fun a b hab => ?_, h.oneToOne, fun a b hab => ?_, fun a b hab other => ?_,
    fun a b hab other hother => ?_⟩
  · rw [size_bind, size_bind]
    exact h.inRange a b hab
  · rw [chain_bind, chain_bind]
    exact h.chain a b hab
  · rw [builtin?_of_fixed (fixed_bind st i a name v), builtin?_of_fixed (fixed_bind st' j b name w)]
    exact h.builtins a b hab other
  · have hbefore := h.bindings a b hab other hother
    by_cases hai : a = i
    · -- The two scopes written to stand for each other and for no other scope.
      obtain rfl : b = j := (h.oneToOne a b i j hab hij).mp hai
      subst hai
      rw [bindings_bind_self st name v hrange.1, bindings_bind_self st' name w hrange.2]
      by_cases hname : other = name
      · subst hname
        rw [Ordered.get?_put_self, Ordered.get?_put_self]
        exact .some hvw
      · rw [Ordered.get?_put_ne _ v hname, Ordered.get?_put_ne _ w hname]
        exact hbefore
    · have hbj : b ≠ j := fun hbj => hai ((h.oneToOne a b i j hab hij).mpr hbj)
      rw [bindings_bind_ne st name v hai, bindings_bind_ne st' name w hbj]
      exact hbefore

/-- The pairing with the two scopes added that are opened next. -/
def Opening (ρ : Pairing) (st st' : Store) : Pairing :=
  fun a b => ρ a b ∨ a = st.scopes.size ∧ b = st'.scopes.size

theorem le_opening (st st' : Store) : ρ ≤ Opening ρ st st' := fun _ _ => .inl

theorem Matches.enclose (h : Matches hidden ρ st st') (hij : ρ i j) :
    Matches hidden (Opening ρ st st') (st.enclose i).2 (st'.enclose j).2 := by
  have hrange := h.inRange i j hij
  have hle := le_opening (ρ := ρ) st st'
  refine ⟨?_, ?_, ?_, ?_, ?_⟩
  · rintro a b (hab | ⟨rfl, rfl⟩) <;> rw [size_enclose, size_enclose]
    · obtain ⟨ha, hb⟩ := h.inRange a b hab
      exact ⟨Nat.lt_succ_of_lt ha, Nat.lt_succ_of_lt hb⟩
    · exact ⟨Nat.lt_succ_self _, Nat.lt_succ_self _⟩
  · rintro a b a' b' (hab | ⟨rfl, rfl⟩) (hab' | ⟨rfl, rfl⟩)
    · exact h.oneToOne a b a' b' hab hab'
    · obtain ⟨ha, hb⟩ := h.inRange a b hab
      exact iff_of_false (Nat.ne_of_lt ha) (Nat.ne_of_lt hb)
    · obtain ⟨ha, hb⟩ := h.inRange a' b' hab'
      exact iff_of_false (Nat.ne_of_gt ha) (Nat.ne_of_gt hb)
    · exact iff_of_true rfl rfl
  · rintro a b (hab | ⟨rfl, rfl⟩)
    · obtain ⟨ha, hb⟩ := h.inRange a b hab
      rw [chain_of_scopes (scopes_enclose st i ha), chain_of_scopes (scopes_enclose st' j hb)]
      exact (h.chain a b hab).imp hle
    · rw [chain_enclose_self st hrange.1, chain_enclose_self st' hrange.2]
      exact .cons (.inr ⟨rfl, rfl⟩) ((h.chain i j hij).imp hle)
  · rintro a b (hab | ⟨rfl, rfl⟩) name
    · obtain ⟨ha, hb⟩ := h.inRange a b hab
      rw [builtin?_enclose st i ha, builtin?_enclose st' j hb]
      exact h.builtins a b hab name
    · rw [builtin?_enclose_self st hrange.1, builtin?_enclose_self st' hrange.2]
      exact h.builtins i j hij name
  · rintro a b (hab | ⟨rfl, rfl⟩) name hname
    · obtain ⟨ha, hb⟩ := h.inRange a b hab
      rw [bindings_enclose st ha, bindings_enclose st' hb]
      have hbefore := h.bindings a b hab name hname
      generalize (st.bindings a).get? name = v at hbefore ⊢
      generalize (st'.bindings b).get? name = w at hbefore ⊢
      cases hbefore with
      | none => exact .none
      | some hvw => exact .some (hvw.mono hle)
    · have hnew : (st.enclose i).2.bindings st.scopes.size = [] := bindings_enclose_self st i
      have hnew' : (st'.enclose j).2.bindings st'.scopes.size = [] := bindings_enclose_self st' j
      rw [hnew, hnew']
      exact .none

end Store

structure State.Matches (hidden : String → Prop) (ρ : Pairing) (s s' : State) : Prop where
  store : s.store.Matches hidden ρ s'.store
  lines : s.lines = s'.lines

/-- Both runs come to related results, or both halt for the same reason. -/
inductive SameEnd {α : Type} (R : α → α → Prop) : Except Halt α → Except Halt α → Prop
  | value {a b : α} (h : R a b) : SameEnd R (.ok a) (.ok b)
  | halt (h : Halt) : SameEnd R (.error h) (.error h)

namespace Action

variable {α β : Type}

/-- From states that match by `ρ` the two actions end alike and in matching states, where more
scopes may stand for each other than before. -/
def Alike (hidden : String → Prop) (ρ : Pairing) (act act' : Action α)
    (R : Pairing → α → α → Prop) : Prop :=
  ∀ s s' : State, s.Matches hidden ρ s' → ∃ ρ', ρ ≤ ρ' ∧
    (act.run s).2.Matches hidden ρ' (act'.run s').2 ∧
      SameEnd (R ρ') (act.run s).1 (act'.run s').1

theorem alike_pure {R : Pairing → α → α → Prop} {a b : α} (h : R ρ a b) :
    Alike hidden ρ (pure a) (pure b) R :=
  fun _ _ hs => ⟨ρ, le_refl ρ, hs, .value h⟩

theorem alike_throw {R : Pairing → α → α → Prop} (h : Halt) :
    Alike hidden ρ (throw h : Action α) (throw h) R :=
  fun _ _ hs => ⟨ρ, le_refl ρ, hs, .halt h⟩

theorem Alike.bind {act act' : Action α} {k k' : α → Action β} {R : Pairing → α → α → Prop}
    {S : Pairing → β → β → Prop} (h : Alike hidden ρ act act' R)
    (hk : ∀ ρ' a b, ρ ≤ ρ' → R ρ' a b → Alike hidden ρ' (k a) (k' b) S) :
    Alike hidden ρ (act >>= k) (act' >>= k') S := by
  intro s s' hs
  obtain ⟨ρ₁, hle, hs₁, hend⟩ := h s s' hs
  rw [run_bind, run_bind]
  generalize act.run s = r at hs₁ hend ⊢
  generalize act'.run s' = r' at hs₁ hend ⊢
  obtain ⟨o, s₁⟩ := r
  obtain ⟨o', s₁'⟩ := r'
  cases hend with
  | value hab =>
    obtain ⟨ρ₂, hle', hs₂, hend⟩ := hk ρ₁ _ _ hle hab s₁ s₁' hs₁
    exact ⟨ρ₂, le_trans hle hle', hs₂, hend⟩
  | halt h => exact ⟨ρ₁, hle, hs₁, .halt h⟩

end Action

def Event.line? : Event → Option String
  | .printed line => some line
  | _ => none

theorem State.lines_cons (st : Store) (e : Event) (js : List Event) :
    (⟨st, e :: js⟩ : State).lines = (⟨st, js⟩ : State).lines ++ e.line?.toList := by
  cases e <;> simp [State.lines, Event.line?]

namespace Action

theorem alike_record {e e' : Event} (h : e.line? = e'.line?) :
    Alike hidden ρ (record e) (record e') fun ρ' _ _ => ρ' = ρ := by
  intro s s' hs
  refine ⟨ρ, le_refl ρ, ⟨hs.store, ?_⟩, .value rfl⟩
  rw [run_record, run_record, State.lines_cons, State.lines_cons, h]
  exact congrArg (· ++ _) hs.lines

theorem alike_bindName {i j : ScopeId} (hij : ρ i j) (name : String) {v w : Value}
    (hvw : Value.Matches hidden ρ v w) :
    Alike hidden ρ (Action.bind i name v) (Action.bind j name w) fun ρ' _ _ => ρ' = ρ := by
  intro s s' hs
  refine ⟨ρ, le_refl ρ, ⟨hs.store.bind hij name hvw, ?_⟩, .value rfl⟩
  rw [run_bindName, run_bindName, State.lines_cons, State.lines_cons]
  exact congrArg (· ++ _) hs.lines

/-- The scopes that two calls open stand for each other from then on. -/
theorem alike_enclose {i j : ScopeId} (hij : ρ i j) :
    Alike hidden ρ (enclose i) (enclose j) fun ρ' i j => ρ' i j := by
  intro s s' hs
  exact ⟨_, Store.le_opening s.store s'.store, ⟨hs.store.enclose hij, hs.lines⟩,
    .value (.inr ⟨rfl, rfl⟩)⟩

theorem Alike.observed {act act' : Action Value}
    (h : Alike hidden ρ act act' (Value.Matches hidden)) (node : Node) (i j : ScopeId) :
    Alike hidden ρ (act.observed node i) (act'.observed node j) (Value.Matches hidden) := by
  have hentered : Alike hidden ρ (record (.entered node i)) (record (.entered node j))
      fun ρ' _ _ => ρ' = ρ := alike_record rfl
  have hcompleted (ρ' : Pairing) (v w : Value) :
      Alike hidden ρ' (record (.completed node v)) (record (.completed node w))
        fun ρ'' _ _ => ρ'' = ρ' := alike_record rfl
  refine hentered.bind ?_
  rintro ρ _ _ _ rfl
  refine h.bind fun ρ' v w _ hvw => (hcompleted ρ' v w).bind ?_
  rintro ρ' _ _ _ rfl
  exact alike_pure hvw

theorem Alike.unlessError {act act' : Action Value} {k k' : Value → Action Value}
    (h : Alike hidden ρ act act' (Value.Matches hidden))
    (hk : ∀ ρ' v w, ρ ≤ ρ' → Value.Matches hidden ρ' v w →
      Alike hidden ρ' (k v) (k' w) (Value.Matches hidden)) :
    Alike hidden ρ (act.unlessError k) (act'.unlessError k') (Value.Matches hidden) := by
  refine h.bind fun ρ' v w hle hvw => ?_
  rw [hvw.isError_eq]
  split
  · exact alike_pure hvw
  · exact hk ρ' v w hle hvw

end Action

open TreeWalk.Action

theorem alike_lookup {i j : ScopeId} (hij : ρ i j) {name : String} (hname : ¬ hidden name) :
    Alike hidden ρ (lookup i name) (lookup j name) (Value.Matches hidden) := by
  intro s s' hs
  rw [run_lookup, run_lookup]
  refine ⟨ρ, le_refl ρ, hs, .value ?_⟩
  have hget := hs.store.get? hij hname
  rw [hs.store.builtins i j hij name]
  generalize s.store.get? i name = v at hget ⊢
  generalize s'.store.get? j name = w at hget ⊢
  cases hget with
  | some hvw => exact hvw
  | none =>
    cases s'.store.builtin? j name with
    | some b => exact .builtin b
    | none => exact Value.matches_failure _

theorem alike_bindTo {i j : ScopeId} (hij : ρ i j) (target : Node) {v w : Value}
    (hvw : Value.Matches hidden ρ v w) :
    Alike hidden ρ (bindTo i target v) (bindTo j target w) fun ρ' _ _ => ρ' = ρ := by
  unfold bindTo
  split
  · exact alike_bindName hij _ hvw
  · split
    · exact alike_pure rfl
    · exact alike_throw _

theorem alike_bindAll {i j : ScopeId} (hij : ρ i j) (ps : List Node) {args args' : List Value}
    (h : List.Forall₂ (Value.Matches hidden ρ) args args') :
    Alike hidden ρ (bindAll i (ps.zip args)) (bindAll j (ps.zip args')) fun ρ' _ _ => ρ' = ρ := by
  induction h generalizing ps with
  | nil =>
    simp only [List.zip_nil_right]
    exact alike_pure rfl
  | cons hvw _ ih =>
    cases ps with
    | nil => exact alike_pure rfl
    | cons p ps =>
      refine (alike_bindTo hij p hvw).bind ?_
      rintro ρ _ _ _ rfl
      exact ih ps

theorem alike_runBuiltin (b : Builtin) {args args' : List Value}
    (h : List.Forall₂ (Value.Matches hidden ρ) args args') :
    Alike hidden ρ (runBuiltin b args) (runBuiltin b args') (Value.Matches hidden) := by
  have hlines (lines : List String) :
      Alike hidden ρ (lines.forM fun line => Action.record (.printed line))
        (lines.forM fun line => Action.record (.printed line)) fun ρ' _ _ => ρ' = ρ := by
    induction lines with
    | nil => exact alike_pure rfl
    | cons line lines ih =>
      refine (alike_record rfl).bind ?_
      rintro ρ _ _ _ rfl
      exact ih
  unfold runBuiltin
  rw [b.lines_eq h]
  refine (hlines _).bind ?_
  rintro ρ _ _ _ rfl
  exact alike_pure (b.matches_answer h)

section

variable {call : Value → List Value → Action Value}

variable (hidden call) in
def CallsAlike : Prop :=
  ∀ ρ f g args args', Value.Matches hidden ρ f g →
    List.Forall₂ (Value.Matches hidden ρ) args args' →
      Alike hidden ρ (call f args) (call g args') (Value.Matches hidden)

variable (hidden call) in
def EvalAlike (n : Node) : Prop :=
  ∀ ρ i j, ρ i j → Alike hidden ρ (eval call n i) (eval call n j) (Value.Matches hidden)

theorem alike_evalStatements {ss : List Node} (h : ∀ s ∈ ss, EvalAlike hidden call s)
    {i j : ScopeId} (hij : ρ i j) {last last' : Value} (hlast : Value.Matches hidden ρ last last') :
    Alike hidden ρ (evalStatements call ss last i) (evalStatements call ss last' j)
      (Value.Matches hidden) := by
  induction ss generalizing ρ last last' with
  | nil =>
    rw [evalStatements, evalStatements]
    exact alike_pure hlast
  | cons s ss ih =>
    obtain ⟨hs, hss⟩ := List.forall_mem_cons.mp h
    rw [evalStatements_cons, evalStatements_cons]
    refine (hs ρ i j hij).unlessError fun ρ' v w hle hvw => ?_
    cases hvw with
    | returned hvw => exact alike_pure (.returned hvw)
    | int | bool | str | null | error | builtin => exact ih hss (hle i j hij) (by constructor)
    | array length elements => exact ih hss (hle i j hij) (.array length elements)
    | hash length hashKeys keys values =>
      exact ih hss (hle i j hij) (.hash length hashKeys keys values)
    | function scopes visible => exact ih hss (hle i j hij) (.function scopes visible)

theorem alike_evalAll {es : List Node} (h : ∀ e ∈ es, EvalAlike hidden call e) {i j : ScopeId}
    (hij : ρ i j) {k k' : List Value → Action Value}
    (hk : ∀ ρ' vs ws, ρ ≤ ρ' → List.Forall₂ (Value.Matches hidden ρ') vs ws →
      Alike hidden ρ' (k vs) (k' ws) (Value.Matches hidden)) :
    Alike hidden ρ (evalAll call i es k) (evalAll call j es k') (Value.Matches hidden) := by
  induction es generalizing ρ k k' with
  | nil =>
    rw [evalAll_nil, evalAll_nil]
    exact hk ρ [] [] (le_refl ρ) .nil
  | cons e es ih =>
    obtain ⟨he, hes⟩ := List.forall_mem_cons.mp h
    rw [evalAll_cons, evalAll_cons]
    refine (he ρ i j hij).unlessError fun ρ₁ v w hle hvw => ih hes (hle i j hij) ?_
    intro ρ₂ vs ws hle' hvws
    exact hk ρ₂ (v :: vs) (w :: ws) (le_trans hle hle') (.cons (hvw.mono hle') hvws)

theorem alike_evalPairs {ps : List (Node × Node)} (hkeys : ∀ p ∈ ps, EvalAlike hidden call p.1)
    (hvalues : ∀ p ∈ ps, EvalAlike hidden call p.2) {i j : ScopeId} (hij : ρ i j)
    {es fs : Ordered HashKey (Value × Value)} (h : Value.Matches hidden ρ (.hash es) (.hash fs)) :
    Alike hidden ρ (evalPairs call ps es i) (evalPairs call ps fs j) (Value.Matches hidden) := by
  induction ps generalizing ρ es fs with
  | nil =>
    rw [evalPairs, evalPairs]
    exact alike_pure h
  | cons p ps ih =>
    obtain ⟨hkey, hkeys⟩ := List.forall_mem_cons.mp hkeys
    obtain ⟨hvalue, hvalues⟩ := List.forall_mem_cons.mp hvalues
    rw [evalPairs_cons, evalPairs_cons]
    refine (hkey ρ i j hij).unlessError fun ρ₁ key key' hle hkk => ?_
    have hij₁ := hle i j hij
    rw [hkk.hashKey?_eq, hkk.tag_eq]
    cases key'.hashKey? with
    | none => exact alike_pure (Value.matches_failure _)
    | some k =>
      refine (hvalue ρ₁ i j hij₁).unlessError fun ρ₂ v w hle' hvw => ?_
      have hentries := (h.mono (le_trans hle hle')).put (hkk.mono hle') hvw k
      exact ih hkeys hvalues (hle' i j hij₁) hentries

theorem evalAlike_of_rule {n : Node} {act : ScopeId → Action Value}
    (hrule : ∀ i, eval call n i = (act i).observed n i)
    (h : ∀ ρ i j, ρ i j → Alike hidden ρ (act i) (act j) (Value.Matches hidden)) :
    EvalAlike hidden call n := by
  intro ρ i j hij
  rw [hrule, hrule]
  exact (h ρ i j hij).observed n i j

theorem Node.Avoids.each {ns : List Node}
    (h : ∀ name ∈ Node.namesEach ns, ¬ hidden name) : ∀ n ∈ ns, n.Avoids hidden := by
  rw [Node.namesEach_eq_flatMap] at h
  exact fun n hn name hname => h name (List.mem_flatMap.mpr ⟨n, hn, hname⟩)

theorem Node.Avoids.pairs {ps : List (Node × Node)}
    (h : ∀ name ∈ Node.namesPairs ps, ¬ hidden name) :
    ∀ p ∈ ps, p.1.Avoids hidden ∧ p.2.Avoids hidden := by
  rw [Node.namesPairs_eq_flatMap] at h
  intro p hp
  refine List.forall_mem_append.mp fun name hname => ?_
  exact h name (List.mem_flatMap.mpr ⟨p, hp, hname⟩)

theorem evalAlike (hcall : CallsAlike hidden call) (n : Node) (hn : n.Avoids hidden) :
    EvalAlike hidden call n := by
  induction n with
  | missing | bare =>
    exact evalAlike_of_rule (fun i => by rw [eval]) fun _ _ _ _ => alike_throw _
  | program ss ih =>
    have hss := Node.Avoids.each hn
    refine evalAlike_of_rule (eval_program call · ss) fun ρ i j hij => ?_
    refine (alike_evalStatements (fun s hs => ih s hs (hss s hs)) hij .null).unlessError ?_
    exact fun _ _ _ _ hvw => alike_pure hvw.unwrapped
  | letStmt t name value _ ih =>
    have hvalue := (List.forall_mem_append.mp hn).2
    refine evalAlike_of_rule (eval_letStmt call · t name value) fun ρ i j hij => ?_
    refine (ih hvalue ρ i j hij).unlessError fun ρ' v w hle hvw => ?_
    refine (alike_bindTo (hle i j hij) name hvw).bind ?_
    rintro ρ' _ _ _ rfl
    exact alike_pure hvw
  | returnStmt t value ih =>
    refine evalAlike_of_rule (eval_returnStmt call · t value) fun ρ i j hij => ?_
    exact (ih hn ρ i j hij).unlessError fun _ _ _ _ hvw => alike_pure (.returned hvw)
  | exprStmt t e ih =>
    exact evalAlike_of_rule (eval_exprStmt call · t e) (ih hn)
  | block t ss ih =>
    have hss := Node.Avoids.each hn
    refine evalAlike_of_rule (fun i => by rw [eval]) fun ρ i j hij => ?_
    exact alike_evalStatements (fun s hs => ih s hs (hss s hs)) hij .null
  | ident t name =>
    have hname : ¬ hidden name := hn name List.mem_cons_self
    exact evalAlike_of_rule (fun i => by rw [eval]) fun _ _ _ hij => alike_lookup hij hname
  | intLit t n =>
    exact evalAlike_of_rule (fun i => by rw [eval]) fun _ _ _ _ => alike_pure (.int n)
  | boolLit t b =>
    exact evalAlike_of_rule (fun i => by rw [eval]) fun _ _ _ _ => alike_pure (.bool b)
  | strLit t s =>
    exact evalAlike_of_rule (fun i => by rw [eval]) fun _ _ _ _ => alike_pure (.str s)
  | unary t op right ih =>
    refine evalAlike_of_rule (eval_unary call · t op right) fun ρ i j hij => ?_
    exact (ih hn ρ i j hij).unlessError fun _ _ _ _ hvw => alike_pure (hvw.unary op)
  | binary t op left right ih ih' =>
    obtain ⟨hleft, hright⟩ := List.forall_mem_append.mp hn
    refine evalAlike_of_rule (eval_binary call · t op left right) fun ρ i j hij => ?_
    refine (ih hleft ρ i j hij).unlessError fun ρ₁ l l' hle hl => ?_
    refine (ih' hright ρ₁ i j (hle i j hij)).unlessError fun ρ₂ r r' hle' hr => ?_
    exact alike_pure ((hl.mono hle').binary hr op)
  | ifExpr t c a b ih ih' ih'' =>
    obtain ⟨hboth, hb⟩ := List.forall_mem_append.mp hn
    obtain ⟨hc, ha⟩ := List.forall_mem_append.mp hboth
    refine evalAlike_of_rule (eval_ifExpr call · t c a b) fun ρ i j hij => ?_
    refine (ih hc ρ i j hij).unlessError fun ρ' v w hle hvw => ?_
    rw [hvw.truthy_eq]
    split
    · exact ih' ha ρ' i j (hle i j hij)
    · split
      · exact alike_pure .null
      · exact ih'' hb ρ' i j (hle i j hij)
  | fnLit t ps body =>
    exact evalAlike_of_rule (fun i => by rw [eval]) fun _ _ _ hij => alike_pure (.function hij hn)
  | call t f args ih ih' =>
    obtain ⟨hf, hargs⟩ := List.forall_mem_append.mp hn
    have hargs := Node.Avoids.each hargs
    refine evalAlike_of_rule (eval_call call · t f args) fun ρ i j hij => ?_
    refine (ih hf ρ i j hij).unlessError fun ρ₁ v w hle hvw => ?_
    refine alike_evalAll (fun a ha => ih' a ha (hargs a ha)) (hle i j hij) ?_
    exact fun ρ₂ vs ws hle' hvws => hcall ρ₂ v w vs ws (hvw.mono hle') hvws
  | arrayLit t es ih =>
    have hes := Node.Avoids.each hn
    refine evalAlike_of_rule (eval_arrayLit call · t es) fun ρ i j hij => ?_
    refine alike_evalAll (fun e he => ih e he (hes e he)) hij ?_
    exact fun _ _ _ _ hvws => alike_pure (.of_elements hvws)
  | index t left position ih ih' =>
    obtain ⟨hleft, hposition⟩ := List.forall_mem_append.mp hn
    refine evalAlike_of_rule (eval_index call · t left position) fun ρ i j hij => ?_
    refine (ih hleft ρ i j hij).unlessError fun ρ₁ l l' hle hl => ?_
    refine (ih' hposition ρ₁ i j (hle i j hij)).unlessError fun ρ₂ p p' hle' hp => ?_
    exact alike_pure ((hl.mono hle').index hp)
  | hashLit t ps ih ih' =>
    have hps := Node.Avoids.pairs hn
    refine evalAlike_of_rule (fun i => by rw [eval]) fun ρ i j hij => ?_
    exact alike_evalPairs (fun p hp => ih p hp (hps p hp).1) (fun p hp => ih' p hp (hps p hp).2) hij
      (.of_entries .nil)

/-- The bodies are evaluated in the scopes that the two calls open. -/
theorem alike_inBody (hcall : CallsAlike hidden call) {ps : List Node} {body : Node} {i j : ScopeId}
    (hf : Value.Matches hidden ρ (.function ps body i) (.function ps body j))
    {args args' : List Value} (hargs : List.Forall₂ (Value.Matches hidden ρ) args args') :
    Alike hidden ρ (inBody call ps body i args) (inBody call ps body j args')
      (Value.Matches hidden) := by
  cases hf with
  | function scopes visible =>
    have hbody : body.Avoids hidden := (List.forall_mem_append.mp visible).2
    refine (alike_enclose scopes).bind fun ρ₁ inner inner' hle hinner => ?_
    refine (alike_bindAll hinner ps (hargs.imp fun _ _ hvw => hvw.mono hle)).bind ?_
    rintro ρ₁ _ _ _ rfl
    refine (evalAlike hcall body hbody ρ₁ inner inner' hinner).bind fun ρ₂ v w _ hvw => ?_
    exact alike_pure hvw.unwrapped

end

theorem callsAlike_applyWithin (limit : Nat) : CallsAlike hidden (applyWithin limit) := by
  induction limit with
  | zero =>
    intro ρ f g args args' hf hargs
    cases hf with
    | function =>
      rw [applyWithin, applyWithin, hargs.length_eq]
      split
      · exact alike_pure (Value.matches_failure _)
      · exact alike_throw _
    | builtin b => exact alike_runBuiltin b hargs
    | _ => exact alike_pure (Value.matches_failure _)
  | succ limit ih =>
    intro ρ f g args args' hf hargs
    cases hf with
    | function scopes visible =>
      rw [applyWithin, applyWithin, hargs.length_eq]
      split
      · exact alike_pure (Value.matches_failure _)
      · exact alike_inBody ih (.function scopes visible) hargs
    | builtin b => exact alike_runBuiltin b hargs
    | _ => exact alike_pure (Value.matches_failure _)

theorem alike_evaluateWithin (limit : Nat) {n : Node} (hn : n.Avoids hidden) {i j : ScopeId}
    (hij : ρ i j) :
    Alike hidden ρ (evaluateWithin limit n i) (evaluateWithin limit n j) (Value.Matches hidden) :=
  evalAlike (callsAlike_applyWithin limit) n hn ρ i j hij

end TreeWalk
