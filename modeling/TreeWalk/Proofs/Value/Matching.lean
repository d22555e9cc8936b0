import Mathlib.Data.List.Forall2
import Mathlib.Order.Basic
import TreeWalk.Proofs.Value.Parts

/-! Two runs number their scopes each in its own way, so what they come to agrees only up to the
scopes that functions were made in. Names that no function mentions may be left out of what the runs
have in common. -/
namespace TreeWalk

/-- Induction on values: what holds of all that a value holds, holds of the value. -/
@[elab_as_elim]
theorem Value.induct {P : Value → Prop} (int : ∀ n, P (.int n)) (bool : ∀ b, P (.bool b))
    (str : ∀ s, P (.str s)) (null : P .null) (returned : ∀ v, P v → P (.returned v))
    (error : ∀ message, P (.error message)) (array : ∀ vs, (∀ v ∈ vs, P v) → P (.array vs))
    (hash : ∀ es, (∀ e ∈ es, P e.2.1) → (∀ e ∈ es, P e.2.2) → P (.hash es))
    (function : ∀ ps body scope, P (.function ps body scope)) (builtin : ∀ b, P (.builtin b))
    (v : Value) : P v :=
  @Value.rec P (fun vs => ∀ v ∈ vs, P v) (fun es => (∀ e ∈ es, P e.2.1) ∧ ∀ e ∈ es, P e.2.2)
    (fun e => P e.2.1 ∧ P e.2.2) (fun e => P e.1 ∧ P e.2)
    int bool str null returned error array (fun es h => hash es h.1 h.2) function builtin
    (List.forall_mem_nil _) (fun _ _ hv hvs => List.forall_mem_cons.mpr ⟨hv, hvs⟩)
    ⟨List.forall_mem_nil _, List.forall_mem_nil _⟩
    (fun _ _ he hes => ⟨List.forall_mem_cons.mpr ⟨he.1, hes.1⟩,
      List.forall_mem_cons.mpr ⟨he.2, hes.2⟩⟩)
    (fun _ _ h => h) (fun _ _ hk hv => ⟨hk, hv⟩) v

namespace Node

mutual

/-- The names that occur in a node: used, bound by a `let`, or taken by a parameter. -/
def names : Node → List String
  | missing | bare .. | intLit .. | boolLit .. | strLit .. => []
  | program statements => namesEach statements
  | letStmt _ target value => target.bindingName?.toList ++ value.names
  | returnStmt _ value => value.names
  | exprStmt _ e => e.names
  | block _ statements => namesEach statements
  | ident _ name => [name]
  | unary _ _ right => right.names
  | binary _ _ left right => left.names ++ right.names
  | ifExpr _ condition consequence alternative =>
    condition.names ++ consequence.names ++ alternative.names
  | fnLit _ parameters body => parameters.filterMap bindingName? ++ body.names
  | call _ function arguments => function.names ++ namesEach arguments
  | arrayLit _ elements => namesEach elements
  | index _ left position => left.names ++ position.names
  | hashLit _ pairs => namesPairs pairs

def namesEach : List Node → List String
  | [] => []
  | n :: ns => n.names ++ namesEach ns

def namesPairs : List (Node × Node) → List String
  | [] => []
  | (k, v) :: ps => k.names ++ v.names ++ namesPairs ps

end

theorem namesEach_eq_flatMap (ns : List Node) : namesEach ns = ns.flatMap names := by
  induction ns with
  | nil => rfl
  | cons n ns ih => simp [namesEach, ih]

theorem namesPairs_eq_flatMap (ps : List (Node × Node)) :
    namesPairs ps = ps.flatMap fun p => p.1.names ++ p.2.names := by
  induction ps with
  | nil => rfl
  | cons p ps ih => simp [namesPairs, ih]

def Avoids (hidden : String → Prop) (n : Node) : Prop := ∀ name ∈ n.names, ¬ hidden name

end Node

/-- Which scope of one store stands for which scope of another. -/
abbrev Pairing := ScopeId → ScopeId → Prop

namespace Ordered

variable {κ ν : Type} [DecidableEq κ] {R : ν → ν → Prop} {m m' : Ordered κ ν}

def Related (R : ν → ν → Prop) (m m' : Ordered κ ν) : Prop :=
  List.Forall₂ (fun e f => e.1 = f.1 ∧ R e.2 f.2) m m'

theorem Related.get? (h : Related R m m') (k : κ) : Option.Rel R (m.get? k) (m'.get? k) := by
  induction h with
  | nil => exact .none
  | @cons e f m m' hef _ ih =>
    obtain ⟨hkey, hvalue⟩ := hef
    by_cases hk : e.1 = k
    · simp only [Ordered.get?, hk, ← hkey, if_true]
      exact .some hvalue
    · simp only [Ordered.get?, hk, ← hkey, if_false]
      exact ih

theorem Related.put (h : Related R m m') (k : κ) {v w : ν} (hvw : R v w) :
    Related R (m.put k v) (m'.put k w) := by
  induction h with
  | nil => exact .cons ⟨rfl, hvw⟩ .nil
  | @cons e f m m' hef hrest ih =>
    obtain ⟨hkey, hvalue⟩ := hef
    by_cases hk : e.1 = k
    · simp only [Ordered.put, hk, ← hkey, if_true]
      exact .cons ⟨rfl, hvw⟩ hrest
    · simp only [Ordered.put, hk, ← hkey, if_false]
      exact .cons ⟨rfl, hvalue⟩ ih

end Ordered

namespace Value

def names : Value → List String
  | function parameters body _ => parameters.filterMap Node.bindingName? ++ body.names
  | _ => []

variable {hidden : String → Prop} {ρ ρ' : Pairing}

/-- Values built alike, up to the scopes of functions in which no hidden name occurs. -/
inductive Matches (hidden : String → Prop) (ρ : Pairing) : Value → Value → Prop
  | int (n : Int) : Matches hidden ρ (.int n) (.int n)
  | bool (b : Bool) : Matches hidden ρ (.bool b) (.bool b)
  | str (s : String) : Matches hidden ρ (.str s) (.str s)
  | null : Matches hidden ρ .null .null
  | error (message : String) : Matches hidden ρ (.error message) (.error message)
  | builtin (b : Builtin) : Matches hidden ρ (.builtin b) (.builtin b)
  | returned {v w : Value} (value : Matches hidden ρ v w) :
      Matches hidden ρ (.returned v) (.returned w)
  | array {vs ws : List Value} (length : vs.length = ws.length)
      (elements : ∀ p ∈ vs.zip ws, Matches hidden ρ p.1 p.2) :
      Matches hidden ρ (.array vs) (.array ws)
  | hash {es fs : List (HashKey × Value × Value)} (length : es.length = fs.length)
      (hashKeys : ∀ p ∈ es.zip fs, p.1.1 = p.2.1)
      (keys : ∀ p ∈ es.zip fs, Matches hidden ρ p.1.2.1 p.2.2.1)
      (values : ∀ p ∈ es.zip fs, Matches hidden ρ p.1.2.2 p.2.2.2) :
      Matches hidden ρ (.hash es) (.hash fs)
  | function {ps : List Node} {body : Node} {i j : ScopeId} (scopes : ρ i j)
      (visible : ∀ name ∈ (Value.function ps body i).names, ¬ hidden name) :
      Matches hidden ρ (.function ps body i) (.function ps body j)

def EntryMatches (hidden : String → Prop) (ρ : Pairing) (e f : Value × Value) : Prop :=
  Matches hidden ρ e.1 f.1 ∧ Matches hidden ρ e.2 f.2

namespace Matches

theorem mono {v w : Value} (h : Matches hidden ρ v w) (hle : ρ ≤ ρ') : Matches hidden ρ' v w := by
  induction h with
  | int | bool | str | null | error | builtin => constructor
  | returned _ ih => exact .returned ih
  | array length _ ih => exact .array length ih
  | hash length hashKeys _ _ ih ih' => exact .hash length hashKeys ih ih'
  | function scopes visible => exact .function (hle _ _ scopes) visible

theorem of_elements {vs ws : List Value} (h : List.Forall₂ (Matches hidden ρ) vs ws) :
    Matches hidden ρ (.array vs) (.array ws) :=
  .array h.length_eq fun _ hp => List.forall₂_zip h hp

theorem elements {vs ws : List Value} (h : Matches hidden ρ (.array vs) (.array ws)) :
    List.Forall₂ (Matches hidden ρ) vs ws := by
  cases h with
  | array length elements => exact List.forall₂_iff_zip.mpr ⟨length, fun hp => elements _ hp⟩

theorem of_entries {es fs : List (HashKey × Value × Value)}
    (h : Ordered.Related (EntryMatches hidden ρ) es fs) :
    Matches hidden ρ (.hash es) (.hash fs) := by
  have hzip (p : (HashKey × Value × Value) × HashKey × Value × Value) (hp : p ∈ es.zip fs) :=
    List.forall₂_zip h hp
  exact .hash h.length_eq (fun p hp => (hzip p hp).1) (fun p hp => (hzip p hp).2.1)
    fun p hp => (hzip p hp).2.2

theorem entries {es fs : List (HashKey × Value × Value)}
    (h : Matches hidden ρ (.hash es) (.hash fs)) :
    Ordered.Related (EntryMatches hidden ρ) es fs := by
  cases h with
  | hash length hashKeys keys values =>
    exact List.forall₂_iff_zip.mpr
      ⟨length, fun hp => ⟨hashKeys _ hp, keys _ hp, values _ hp⟩⟩

/-- A value matches itself if every function in it keeps its scope and mentions no hidden name. -/
theorem refl {v : Value} (hscopes : ∀ ps body i, .function ps body i ∈ v.parts → ρ i i)
    (hvisible : v.Everywhere fun w => ∀ name ∈ w.names, ¬ hidden name) :
    Matches hidden ρ v v := by
  induction v using Value.induct with
  | int | bool | str | null | error | builtin => constructor
  | returned v ih =>
    have hsub {w : Value} (hw : w ∈ v.parts) : w ∈ (Value.returned v).parts :=
      mem_parts_returned.mpr (.inr hw)
    exact .returned (ih (fun ps body i h => hscopes ps body i (hsub h))
      fun w hw => hvisible w (hsub hw))
  | array vs ih =>
    refine of_elements (List.forall₂_same.mpr fun v hv => ?_)
    have hsub := parts_subset_array hv
    exact ih v hv (fun ps body i h => hscopes ps body i (hsub h)) fun w hw => hvisible w (hsub hw)
  | hash es ih ih' =>
    refine of_entries (List.forall₂_same.mpr fun e he => ⟨rfl, ?_, ?_⟩)
    · have hsub {w : Value} (hw : w ∈ e.2.1.parts) : w ∈ (Value.hash es).parts :=
        mem_parts_hash.mpr (.inr ⟨e, he, .inl hw⟩)
      exact ih e he (fun ps body i h => hscopes ps body i (hsub h)) fun w hw => hvisible w (hsub hw)
    · have hsub := parts_subset_hash he
      exact ih' e he (fun ps body i h => hscopes ps body i (hsub h))
        fun w hw => hvisible w (hsub hw)
  | function ps body i =>
    have hself := mem_parts_self (.function ps body i)
    exact .function (hscopes ps body i hself) (hvisible _ hself)

variable {v w : Value}

theorem tag_eq (h : Matches hidden ρ v w) : v.tag = w.tag := by
  cases h <;> rfl

theorem isError_eq (h : Matches hidden ρ v w) : v.isError = w.isError := by
  cases h <;> rfl

theorem truthy_eq (h : Matches hidden ρ v w) : v.truthy = w.truthy := by
  cases h <;> rfl

theorem hashKey?_eq (h : Matches hidden ρ v w) : v.hashKey? = w.hashKey? := by
  cases h <;> rfl

theorem unwrapped (h : Matches hidden ρ v w) : Matches hidden ρ v.unwrapped w.unwrapped := by
  cases h with
  | returned value => exact value
  | int | bool | str | null | error | builtin => constructor
  | array length elements => exact .array length elements
  | hash length hashKeys keys values => exact .hash length hashKeys keys values
  | function scopes visible => exact .function scopes visible

/-- Matching values are shown alike. -/
theorem inspect_eq (h : Matches hidden ρ v w) : v.inspect = w.inspect := by
  have hmap {α : Type} {vs ws : List α} {f : α → String} (hlength : vs.length = ws.length)
      (hzip : ∀ p ∈ vs.zip ws, f p.1 = f p.2) : vs.map f = ws.map f := by
    have hforall : List.Forall₂ (fun a b => f a = f b) vs ws :=
      List.forall₂_iff_zip.mpr ⟨hlength, fun hp => hzip _ hp⟩
    rw [← List.forall₂_eq_eq_eq, List.forall₂_map_left_iff, List.forall₂_map_right_iff]
    exact hforall
  induction h with
  | int | bool | str | null | error | builtin => rfl
  | returned _ ih => exact ih
  | array length _ ih => simp only [inspect, inspects_eq_map, hmap length ih]
  | hash length _ _ _ ih ih' =>
    have hentries := hmap (f := fun e => e.2.1.inspect ++ ": " ++ e.2.2.inspect) length
      fun p hp => by rw [ih p hp, ih' p hp]
    simp only [inspect, inspectEntries_eq_map, hentries]
  | function => rfl

end Matches

theorem matches_failure (f : Failure) : Matches hidden ρ f.value f.value := .error _

theorem Matches.unary {v w : Value} (h : Matches hidden ρ v w) (op : String) :
    Matches hidden ρ (unary op v) (unary op w) := by
  unfold Value.unary
  split
  · cases h <;> exact .bool _
  · cases h with
    | int n =>
      simp only [negate]
      split
      · exact matches_failure _
      · exact .int _
    | _ => exact matches_failure _
  · rw [h.tag_eq]
    exact matches_failure _

theorem matches_integerBinary (op : String) (a b : Int) :
    Matches hidden ρ (integerBinary op a b) (integerBinary op a b) := by
  unfold integerBinary
  split
  · exact .bool _
  · exact matches_failure _
  · split
    · exact matches_failure _
    · split
      · exact .int _
      · exact matches_failure _

theorem Matches.binary {l l' r r' : Value} (hl : Matches hidden ρ l l')
    (hr : Matches hidden ρ r r') (op : String) :
    Matches hidden ρ (binary op l r) (binary op l' r') := by
  unfold Value.binary
  rw [← hl.tag_eq, ← hr.tag_eq]
  split
  · exact matches_failure _
  · cases hl with
    | int a =>
      cases hr with
      | int b => exact matches_integerBinary op a b
      | _ => exact matches_failure _
    | str a =>
      cases hr with
      | str b =>
        simp only
        split
        · exact .str _
        · exact matches_failure _
      | _ => exact matches_failure _
    | bool a =>
      cases hr with
      | bool b =>
        simp only
        split
        · exact .bool _
        · split
          · exact .bool _
          · exact matches_failure _
      | _ => exact matches_failure _
    | _ => exact matches_failure _

theorem rel_getElem? {R : Value → Value → Prop} {vs ws : List Value} (h : List.Forall₂ R vs ws)
    (i : Nat) : Option.Rel R vs[i]? ws[i]? := by
  induction h generalizing i with
  | nil => exact .none
  | cons hvw _ ih =>
    cases i with
    | zero => exact .some hvw
    | succ i => exact ih i

theorem matches_getD {a b : Option Value} (h : Option.Rel (Matches hidden ρ) a b) :
    Matches hidden ρ (a.getD .null) (b.getD .null) := by
  cases h with
  | none => exact .null
  | some hvw => exact hvw

theorem Matches.index {l l' p p' : Value} (hl : Matches hidden ρ l l')
    (hp : Matches hidden ρ p p') : Matches hidden ρ (index l p) (index l' p') := by
  cases hl with
  | @array vs ws length elements =>
    cases hp with
    | int n =>
      have helements := (Matches.array length elements).elements
      simp only [Value.index, element]
      split
      · exact matches_getD (rel_getElem? helements n.toNat)
      · exact .null
    | _ => exact matches_failure _
  | @hash es fs length hashKeys keys values =>
    have hentries := (Matches.hash length hashKeys keys values).entries
    simp only [Value.index, ← hp.hashKey?_eq, ← hp.tag_eq]
    split
    · next k _ =>
      have hstored : Option.Rel (Matches hidden ρ) (stored? es k) (stored? fs k) := by
        have hget := hentries.get? k
        unfold stored?
        generalize Ordered.get? es k = a at hget ⊢
        generalize Ordered.get? fs k = b at hget ⊢
        cases hget with
        | none => exact .none
        | some h => exact .some h.2
      exact matches_getD hstored
    · exact matches_failure _
  | _ => exact matches_failure _

theorem Matches.put {es fs : Ordered HashKey (Value × Value)} {k k' v v' : Value}
    (h : Matches hidden ρ (.hash es) (.hash fs)) (hk : Matches hidden ρ k k')
    (hv : Matches hidden ρ v v') (key : HashKey) :
    Matches hidden ρ (.hash (es.put key (k, v))) (.hash (fs.put key (k', v'))) :=
  .of_entries (h.entries.put key ⟨hk, hv⟩)

end Value

namespace Builtin

open Value

variable {hidden : String → Prop} {ρ : Pairing} {args args' : List Value}

theorem matches_onArray (b : Builtin) {k : List Value → Value}
    (h : List.Forall₂ (Matches hidden ρ) args args')
    (hk : ∀ vs ws, List.Forall₂ (Matches hidden ρ) vs ws → Matches hidden ρ (k vs) (k ws)) :
    Matches hidden ρ (b.onArray args k) (b.onArray args' k) := by
  cases h with
  | nil => exact matches_failure _
  | cons hvw hrest =>
    cases hrest with
    | nil =>
      cases hvw with
      | array length elements => exact hk _ _ (Matches.array length elements).elements
      | _ => exact matches_failure _
    | cons _ hrest =>
      simp only [onArray, List.length_cons, hrest.length_eq]
      exact matches_failure _

theorem matches_answer (b : Builtin) (h : List.Forall₂ (Matches hidden ρ) args args') :
    Matches hidden ρ (b.answer args) (b.answer args') := by
  have hempty : Matches hidden ρ .null .null := .null
  cases b with
  | len =>
    cases h with
    | nil => exact matches_failure _
    | cons hvw hrest =>
      cases hrest with
      | nil =>
        cases hvw with
        | str s => exact .int _
        | array length _ =>
          simp only [answer, length]
          exact .int _
        | _ => exact matches_failure _
      | cons _ hrest =>
        simp only [answer, List.length_cons, hrest.length_eq]
        exact matches_failure _
  | first =>
    refine matches_onArray _ h fun vs ws hvw => ?_
    cases hvw with
    | nil => exact hempty
    | cons hfirst _ => exact hfirst
  | last =>
    refine matches_onArray _ h fun vs ws hvw => ?_
    simp only [List.getLast?_eq_getElem?, hvw.length_eq]
    exact matches_getD (rel_getElem? hvw _)
  | rest =>
    refine matches_onArray _ h fun vs ws hvw => ?_
    cases hvw with
    | nil => exact hempty
    | cons _ hrest => exact .of_elements hrest
  | push =>
    cases h with
    | nil => exact matches_failure _
    | cons hvw hrest =>
      cases hrest with
      | nil => cases hvw <;> exact matches_failure _
      | cons hadded hrest =>
        cases hrest with
        | nil =>
          cases hvw with
          | array length elements =>
            have helements := (Matches.array length elements).elements
            exact .of_elements (List.rel_append helements (.cons hadded .nil))
          | _ => exact matches_failure _
        | cons _ hrest =>
          simp only [answer, List.length_cons, hrest.length_eq]
          exact matches_failure _
  | puts => exact hempty

theorem lines_eq (b : Builtin) (h : List.Forall₂ (Matches hidden ρ) args args') :
    b.lines args = b.lines args' := by
  cases b with
  | puts =>
    have hinspect := h.imp fun _ _ hvw => hvw.inspect_eq
    simp only [lines]
    rwa [← List.forall₂_eq_eq_eq, List.forall₂_map_left_iff, List.forall₂_map_right_iff]
  | _ => rfl

end Builtin

end TreeWalk
