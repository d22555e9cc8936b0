import TreeWalk.Proofs.Eval.Rules
import TreeWalk.Proofs.Whole

namespace TreeWalk

namespace Value

/-- The values that can be kept: at no depth is there an error, or a function with parts missing. -/
inductive Sound : Value → Prop
  | int (n : Int) : Sound (.int n)
  | bool (b : Bool) : Sound (.bool b)
  | str (s : String) : Sound (.str s)
  | null : Sound .null
  | builtin (b : Builtin) : Sound (.builtin b)
  | returned {v : Value} (value : Sound v) : Sound (.returned v)
  | array {vs : List Value} (elements : ∀ v ∈ vs, Sound v) : Sound (.array vs)
  | hash {es : List (HashKey × Value × Value)} (keys : ∀ e ∈ es, Sound e.2.1)
      (values : ∀ e ∈ es, Sound e.2.2) : Sound (.hash es)
  | function {ps : List Node} {b : Node} {scope : ScopeId} (names : ∀ p ∈ ps, p.IsIdent)
      (body : b.Whole) : Sound (.function ps b scope)

/-- The values that evaluation may come to: an error on its way out, or sound data. -/
def Passable (v : Value) : Prop := v.isError ∨ v.Sound

theorem Sound.passable {v : Value} (h : v.Sound) : v.Passable := .inr h

theorem passable_failure (f : Failure) : f.value.Passable := .inl rfl

theorem Passable.sound {v : Value} (h : v.Passable) (hv : ¬ v.isError) : v.Sound :=
  h.resolve_left hv

theorem Sound.unwrapped {v : Value} (h : v.Sound) : v.unwrapped.Sound := by
  cases h with
  | returned hv => exact hv
  | int | bool | str | null | builtin => constructor
  | array h => exact .array h
  | hash hk hv => exact .hash hk hv
  | function hps hbody => exact .function hps hbody

theorem passable_unary (op : String) (v : Value) : (unary op v).Passable := by
  unfold unary
  split
  · unfold not
    split <;> exact .inr (.bool _)
  · unfold negate
    split
    · split
      · exact passable_failure _
      · exact .inr (.int _)
    · exact passable_failure _
  · exact passable_failure _

theorem passable_integerBinary (op : String) (a b : Int) : (integerBinary op a b).Passable := by
  unfold integerBinary
  split
  · exact .inr (.bool _)
  · exact passable_failure _
  · split
    · exact passable_failure _
    · split
      · exact .inr (.int _)
      · exact passable_failure _

theorem passable_binary (op : String) (l r : Value) : (binary op l r).Passable := by
  unfold binary
  split
  · exact passable_failure _
  · split
    · exact passable_integerBinary op _ _
    · split
      · exact .inr (.str _)
      · exact passable_failure _
    · split
      · exact .inr (.bool _)
      · split
        · exact .inr (.bool _)
        · exact passable_failure _
    · exact passable_failure _

theorem sound_element {vs : List Value} (h : ∀ v ∈ vs, v.Sound) (position : Int) :
    (element vs position).Sound := by
  unfold element
  split
  · cases hget : vs[position.toNat]? with
    | none => exact .null
    | some v => exact h v (List.mem_of_getElem? hget)
  · exact .null

end Value

theorem Ordered.mem_put {κ ν : Type} [DecidableEq κ] {m : Ordered κ ν} {k : κ} {v : ν} {e : κ × ν}
    (h : e ∈ m.put k v) : e = (k, v) ∨ e ∈ m := by
  induction m with
  | nil => exact .inl (List.mem_singleton.mp h)
  | cons e' m ih =>
    unfold put at h
    split at h
    · rcases List.mem_cons.mp h with rfl | h
      · exact .inl rfl
      · exact .inr (List.mem_cons_of_mem _ h)
    · rcases List.mem_cons.mp h with rfl | h
      · exact .inr List.mem_cons_self
      · rcases ih h with rfl | h
        · exact .inl rfl
        · exact .inr (List.mem_cons_of_mem _ h)

namespace Value

theorem Sound.put {entries : Ordered HashKey (Value × Value)} (h : (Value.hash entries).Sound)
    {key v : Value} (hkey : key.Sound) (hv : v.Sound) (k : HashKey) :
    (Value.hash (entries.put k (key, v))).Sound := by
  cases h with
  | hash hkeys hvalues =>
    refine .hash ?_ ?_
    · intro e he
      rcases Ordered.mem_put he with rfl | he
      · exact hkey
      · exact hkeys e he
    · intro e he
      rcases Ordered.mem_put he with rfl | he
      · exact hv
      · exact hvalues e he

theorem passable_index {l : Value} (h : l.Sound) (p : Value) : (index l p).Passable := by
  unfold index
  split
  · cases h with
    | array h => exact .inr (sound_element h _)
  · next entries =>
    cases h with
    | hash _ hvalues =>
      split
      · next k _ =>
        cases hstored : Ordered.get? entries k with
        | none =>
          rw [stored?, hstored]
          exact .inr .null
        | some pair =>
          rw [stored?, hstored]
          exact .inr (hvalues _ (Ordered.mem_of_get? hstored))
      · exact passable_failure _
  · exact passable_failure _

end Value

namespace Builtin

theorem passable_onArray {b : Builtin} {args : List Value} {k : List Value → Value}
    (hargs : ∀ a ∈ args, a.Sound) (hk : ∀ vs, (∀ v ∈ vs, v.Sound) → (k vs).Sound) :
    (b.onArray args k).Passable := by
  unfold onArray
  split
  · cases List.forall_mem_singleton.mp hargs with
    | array h => exact .inr (hk _ h)
  · exact Value.passable_failure _
  · exact Value.passable_failure _

theorem passable_answer (b : Builtin) {args : List Value} (hargs : ∀ a ∈ args, a.Sound) :
    (b.answer args).Passable := by
  cases b with
  | len =>
    simp only [answer]
    split
    · exact .inr (.int _)
    · exact .inr (.int _)
    · exact Value.passable_failure _
    · exact Value.passable_failure _
  | first =>
    refine passable_onArray hargs fun vs hvs => ?_
    cases vs with
    | nil => exact .null
    | cons v vs => exact hvs v List.mem_cons_self
  | last =>
    refine passable_onArray hargs fun vs hvs => ?_
    cases hlast : vs.getLast? with
    | none => exact .null
    | some v => exact hvs v (List.mem_of_getLast? hlast)
  | rest =>
    refine passable_onArray hargs fun vs hvs => ?_
    split
    · exact .null
    · exact .array fun v hv => hvs v (List.mem_of_mem_tail hv)
  | push =>
    simp only [answer]
    split
    · next v =>
      obtain ⟨harray, hv⟩ := List.forall_mem_cons.mp hargs
      cases harray with
      | array h =>
        exact .inr (.array (List.forall_mem_append.mpr ⟨h, hv⟩))
    · exact Value.passable_failure _
    · exact Value.passable_failure _
  | puts => exact .inr .null

end Builtin

namespace Store

def Sound (st : Store) : Prop := ∀ i, ∀ b ∈ st.bindings i, b.2.Sound

theorem mem_bindings_bind {st : Store} {i j : ScopeId} {name : String} {v : Value}
    {b : String × Value} (h : b ∈ (st.bind i name v).bindings j) :
    b = (name, v) ∨ b ∈ st.bindings j := by
  by_cases hj : j = i
  · subst hj
    by_cases hlt : j < st.scopes.size
    · rw [bindings_bind_self st name v hlt] at h
      exact Ordered.mem_put h
    · simp [bindings, bind, Nat.le_of_not_lt hlt] at h
  · rw [bindings_bind_ne st name v hj] at h
    exact .inr h

theorem mem_bindings_enclose {st : Store} {i j : ScopeId} {b : String × Value}
    (h : b ∈ (st.enclose i).2.bindings j) : b ∈ st.bindings j := by
  by_cases hlt : j < st.scopes.size
  · rwa [bindings_enclose st hlt] at h
  · by_cases hj : j = (st.enclose i).1
    · rw [hj, bindings_enclose_self] at h
      cases h
    · have hj' : st.scopes.size < j := Nat.lt_of_le_of_ne (Nat.le_of_not_lt hlt) (Ne.symm hj)
      simp [bindings, enclose, Array.getElem?_push, Nat.ne_of_gt hj', Nat.le_of_lt hj'] at h

theorem exists_mem_of_get? {st : Store} {i : ScopeId} {name : String} {v : Value}
    (h : st.get? i name = some v) : ∃ j, (name, v) ∈ st.bindings j := by
  obtain ⟨j, _, hj⟩ := List.exists_of_findSome?_eq_some h
  exact ⟨j, Ordered.mem_of_get? hj⟩

theorem Sound.bind {st : Store} (h : st.Sound) {v : Value} (hv : v.Sound) (i : ScopeId)
    (name : String) : (st.bind i name v).Sound := by
  intro j b hb
  rcases mem_bindings_bind hb with rfl | hb
  · exact hv
  · exact h j b hb

theorem Sound.enclose {st : Store} (h : st.Sound) (i : ScopeId) : (st.enclose i).2.Sound :=
  fun j b hb => h j b (mem_bindings_enclose hb)

theorem Sound.get? {st : Store} (h : st.Sound) {i : ScopeId} {name : String} {v : Value}
    (hv : st.get? i name = some v) : v.Sound := by
  obtain ⟨j, hj⟩ := exists_mem_of_get? hv
  exact h j _ hj

theorem sound_openRoot (catalog : String → Option Builtin) :
    (Store.empty.openRoot catalog).2.Sound := by
  intro i b hb
  cases i with
  | zero => cases hb
  | succ i => simp [Store.empty, openRoot, bindings] at hb

end Store

def Event.Sound : Event → Prop
  | .bound _ _ v => v.Sound
  | .completed _ v => v.Passable
  | .entered .. | .printed _ => True

structure State.Sound (s : State) : Prop where
  store : s.store.Sound
  journal : ∀ e ∈ s.journal, e.Sound

end TreeWalk
