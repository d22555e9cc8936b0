import Mathlib.Data.List.Induction
import TreeWalk.Proofs.Eval.Rules
import TreeWalk.Proofs.Value.Literal

/-! A hash stores its entries under digests, and only strings can share one without being the same.
The results ask that those in use do not. -/
namespace TreeWalk

namespace Ordered

variable {κ ν : Type} [DecidableEq κ]

/-- With distinct keys an ordered map is told by its keys and by what stands under them. -/
theorem map_get?_keys {m : Ordered κ ν} (h : (keys m).Nodup) :
    m.map (fun e => (e.1, some e.2)) = (keys m).map fun k => (k, get? m k) := by
  induction m with
  | nil => rfl
  | cons e m ih =>
    obtain ⟨hnew, hrest⟩ := List.nodup_cons.mp h
    have hself : get? (e :: m) e.1 = some e.2 := by simp [get?]
    have hother : (keys m).map (fun k => (k, get? (e :: m) k)) =
        (keys m).map fun k => (k, get? m k) := by
      refine List.map_congr_left fun k hk => ?_
      have hne : e.1 ≠ k := by
        rintro rfl
        exact hnew hk
      simp [get?, hne]
    change (e.1, some e.2) :: m.map _ = (e.1, get? (e :: m) e.1) :: (keys m).map _
    rw [hself, hother, ih hrest]

end Ordered

namespace Value

def Separate (ks : List Value) : Prop :=
  ∀ s t, .str s ∈ ks → .str t ∈ ks → stringDigest s = stringDigest t → s = t

theorem Separate.mono {ks js : List Value} (h : Separate ks) (hsub : js ⊆ ks) : Separate js :=
  fun s t hs ht => h s t (hsub hs) (hsub ht)

theorem tag_of_hashKey? {v : Value} {k : HashKey} (h : v.hashKey? = some k) : k.tag = v.tag := by
  cases v with
  | int | bool | str =>
    cases h
    rfl
  | _ => cases h

/-- Hash keys tell values apart as their contents do. -/
theorem hashKey?_eq_iff {a b : Value} (h : Separate [a, b]) (ha : a.hashKey?.isSome) :
    a.hashKey? = b.hashKey? ↔ a.sameContent b := by
  cases a with
  | int n => cases b <;> simp [hashKey?, sameContent]
  | bool p => cases b <;> cases p <;> simp [hashKey?, sameContent]
  | str s =>
    cases b with
    | str t =>
      have hdigest : stringDigest s = stringDigest t ↔ s = t :=
        ⟨h s t (by simp) (by simp), congrArg stringDigest⟩
      simpa [hashKey?, sameContent, Int.natCast_inj] using hdigest
    | _ => simp [hashKey?, sameContent]
  | _ => cases ha

theorem eq_of_sameContent {a b : Value} (h : a.sameContent b) : a = b := by
  cases a <;> cases b <;> simp_all [sameContent]

def lastPair? (pairs : List (Value × Value)) (k : Value) : Option (Value × Value) :=
  (pairs.filter fun p => p.1.sameContent k).getLast?

def lastValue? (pairs : List (Value × Value)) (k : Value) : Option Value :=
  (lastPair? pairs k).map (·.2)

/-- Each value where it first comes. -/
def distinct : List Value → List Value
  | [] => []
  | k :: ks => k :: (distinct ks).filter fun j => !k.sameContent j

theorem lastPair?_concat (pairs : List (Value × Value)) (p : Value × Value) (k : Value) :
    lastPair? (pairs ++ [p]) k = if p.1.sameContent k then some p else lastPair? pairs k := by
  by_cases h : p.1.sameContent k <;> simp [lastPair?, h]

theorem lastPair?_eq (pairs : List (Value × Value)) (k : Value) :
    lastPair? pairs k = (lastValue? pairs k).map (k, ·) := by
  cases hlast : lastPair? pairs k with
  | none => simp [lastValue?, hlast]
  | some p =>
    have hsame : p.1.sameContent k := (List.mem_filter.mp (List.mem_of_getLast? hlast)).2
    rw [lastValue?, hlast, ← eq_of_sameContent hsame]
    rfl

theorem mem_of_mem_distinct {ks : List Value} {k : Value} (h : k ∈ distinct ks) : k ∈ ks := by
  induction ks with
  | nil => cases h
  | cons a ks ih =>
    rcases List.mem_cons.mp h with rfl | h
    · exact List.mem_cons_self
    · exact List.mem_cons_of_mem _ (ih (List.mem_filter.mp h).1)

/-- A value that comes again leaves the list as it is, a new one comes last. -/
theorem distinct_concat (ks : List Value) (k : Value) :
    distinct (ks ++ [k]) =
      if ks.any fun j => j.sameContent k then distinct ks else distinct ks ++ [k] := by
  induction ks with
  | nil => rfl
  | cons a ks ih =>
    rw [List.cons_append, distinct, ih, distinct]
    by_cases hlater : ks.any fun j => j.sameContent k
    · simp [hlater]
    · by_cases hfirst : a.sameContent k <;> simp [hlater, hfirst]

theorem entriesOf_concat (pairs : List (Value × Value)) {p : Value × Value} {k : HashKey}
    (hk : p.1.hashKey? = some k) : entriesOf (pairs ++ [p]) = (entriesOf pairs).put k p := by
  rw [entriesOf, List.foldl_concat, hk]
  rfl

section

variable {pairs : List (Value × Value)} (usable : ∀ p ∈ pairs, p.1.hashKey?.isSome)
include usable

theorem mem_keys_entriesOf (k : HashKey) :
    k ∈ Ordered.keys (entriesOf pairs) ↔ ∃ p ∈ pairs, p.1.hashKey? = some k := by
  induction pairs using List.reverseRecOn with
  | nil => simp [entriesOf, Ordered.keys]
  | append_singleton pairs p ih =>
    obtain ⟨hpairs, hp⟩ := List.forall_mem_append.mp usable
    obtain ⟨k', hk'⟩ := Option.isSome_iff_exists.mp (hp p List.mem_cons_self)
    have hmem : k ∈ Ordered.keys (entriesOf (pairs ++ [p])) ↔
        k ∈ Ordered.keys (entriesOf pairs) ∨ k' = k := by
      rw [entriesOf_concat pairs hk', Ordered.keys_put]
      split
      · next hold => exact ⟨.inl, fun h => h.elim id fun heq => heq ▸ hold⟩
      · simp [eq_comm]
    rw [hmem, ih hpairs]
    simp [or_and_right, exists_or, hk']

/-- The entries stand in the order in which their keys first came. -/
theorem keys_entriesOf (separate : Separate (pairs.map (·.1))) :
    (Ordered.keys (entriesOf pairs)).map some = (distinct (pairs.map (·.1))).map hashKey? := by
  induction pairs using List.reverseRecOn with
  | nil => rfl
  | append_singleton pairs p ih =>
    obtain ⟨hpairs, hp⟩ := List.forall_mem_append.mp usable
    obtain ⟨k, hk⟩ := Option.isSome_iff_exists.mp (hp p List.mem_cons_self)
    have ih := ih hpairs (separate.mono (by simp))
    have hseen : k ∈ Ordered.keys (entriesOf pairs) ↔
        (pairs.map (·.1)).any fun j => j.sameContent p.1 := by
      rw [mem_keys_entriesOf hpairs, List.any_map, List.any_eq_true]
      refine exists_congr fun q => and_congr_right fun hq => ?_
      have hsub : [q.1, p.1] ⊆ (pairs ++ [p]).map (·.1) := by
        simpa using Or.inl ⟨q.2, hq⟩
      rw [← hk]
      exact hashKey?_eq_iff (separate.mono hsub) (hpairs q hq)
    rw [entriesOf_concat pairs hk, Ordered.keys_put, List.map_append, List.map_singleton,
      distinct_concat]
    by_cases hold : k ∈ Ordered.keys (entriesOf pairs)
    · rw [if_pos hold, if_pos (hseen.mp hold), ih]
    · rw [if_neg hold, if_neg (mt hseen.mpr hold), List.map_append, List.map_append, ih]
      simp [hk]

/-- Under the hash key of a value stands the pair that named the value last. -/
theorem get?_entriesOf {k : Value} (separate : Separate (k :: pairs.map (·.1))) {hashKey : HashKey}
    (hk : k.hashKey? = some hashKey) :
    (entriesOf pairs).get? hashKey = lastPair? pairs k := by
  induction pairs using List.reverseRecOn with
  | nil => rfl
  | append_singleton pairs p ih =>
    obtain ⟨hpairs, hp⟩ := List.forall_mem_append.mp usable
    obtain ⟨k', hk'⟩ := Option.isSome_iff_exists.mp (hp p List.mem_cons_self)
    have ih := ih hpairs (separate.mono (List.cons_subset_cons _ (by simp)))
    have hsame : k' = hashKey ↔ p.1.sameContent k := by
      have hsub : [p.1, k] ⊆ k :: (pairs ++ [p]).map (·.1) := by simp
      rw [← hashKey?_eq_iff (separate.mono hsub) (hp p List.mem_cons_self), hk, hk',
        Option.some_inj]
    rw [entriesOf_concat pairs hk', lastPair?_concat]
    by_cases heq : k' = hashKey
    · rw [if_pos (hsame.mp heq), heq, Ordered.get?_put_self]
    · rw [if_neg (mt hsame.mpr heq), Ordered.get?_put_ne _ _ (Ne.symm heq), ih]

theorem map_entriesOf (separate : Separate (pairs.map (·.1))) :
    (entriesOf pairs).map (fun e => (some e.1, some e.2)) =
      (distinct (pairs.map (·.1))).map fun k => (k.hashKey?, (lastValue? pairs k).map (k, ·)) := by
  let find (k : Option HashKey) : Option HashKey × Option (Value × Value) :=
    (k, k.bind (Ordered.get? (entriesOf pairs)))
  have hdistinct := (entriesOf_spec pairs).1.distinct
  calc (entriesOf pairs).map (fun e => (some e.1, some e.2))
      = ((entriesOf pairs).map fun e => (e.1, some e.2)).map fun e => (some e.1, e.2) := by
        simp [Function.comp_def]
    _ = ((Ordered.keys (entriesOf pairs)).map some).map find := by
        rw [Ordered.map_get?_keys hdistinct]
        simp [find, Function.comp_def]
    _ = (distinct (pairs.map (·.1))).map fun k => find k.hashKey? := by
        rw [keys_entriesOf usable separate, List.map_map]
        rfl
    _ = _ := by
        refine List.map_congr_left fun k hk => ?_
        have hmem := mem_of_mem_distinct hk
        obtain ⟨p, hp, rfl⟩ := List.mem_map.mp hmem
        obtain ⟨hashKey, hhash⟩ := Option.isSome_iff_exists.mp (usable p hp)
        have hsub : p.1 :: pairs.map (·.1) ⊆ pairs.map (·.1) :=
          List.cons_subset.mpr ⟨hmem, List.Subset.refl _⟩
        have hget := get?_entriesOf usable (separate.mono hsub) hhash
        rw [← lastPair?_eq, ← hget]
        simp only [find, hhash, Option.bind_some]

end

end Value

open TreeWalk.Value (entriesOf)

section

variable {call : Value → List Value → Action Value} {scope : ScopeId}

variable (call scope) in
/-- The nodes of a hash literal come to these keys and values, one after the other: each key can be
used, and no value is an error. -/
inductive PairsRun : List (Node × Node) → List (Value × Value) → State → State → Prop
  | nil (s : State) : PairsRun [] [] s s
  | cons {node : Node × Node} {nodes : List (Node × Node)} {p : Value × Value}
      {pairs : List (Value × Value)} {s s₁ s₂ s₃ : State}
      (key : (eval call node.1 scope).run s = (.ok p.1, s₁)) (usable : p.1.hashKey?.isSome)
      (value : (eval call node.2 scope).run s₁ = (.ok p.2, s₂)) (sound : p.2.isError = false)
      (rest : PairsRun nodes pairs s₂ s₃) : PairsRun (node :: nodes) (p :: pairs) s s₃

theorem isError_of_hashKey? {v : Value} (h : v.hashKey?.isSome) : v.isError = false := by
  cases v with
  | error => cases h
  | _ => rfl

/-- The pairs go into the hash in their order, behind those that are there. -/
theorem PairsRun.run_evalPairs {nodes : List (Node × Node)} {pairs : List (Value × Value)}
    {s s' : State} (h : PairsRun call scope nodes pairs s s') (before : List (Value × Value)) :
    (evalPairs call nodes (entriesOf before) scope).run s =
      (.ok (.hash (entriesOf (before ++ pairs))), s') := by
  induction h generalizing before with
  | nil s =>
    rw [evalPairs, List.append_nil]
    rfl
  | @cons node nodes p pairs s s₁ s₂ s₃ key usable value sound _ ih =>
    obtain ⟨k, hk⟩ := Option.isSome_iff_exists.mp usable
    have hnext := ih (before ++ [p])
    rw [Value.entriesOf_concat before hk, List.append_assoc, List.singleton_append] at hnext
    have hvalue : ((eval call node.2 scope).unlessError fun v =>
        evalPairs call nodes ((entriesOf before).put k (p.1, v)) scope).run s₁ =
          (.ok (.hash (entriesOf (before ++ p :: pairs))), s₃) := by
      rw [Action.unlessError, Action.run_bind, value]
      simpa only [sound, Bool.false_eq_true, if_false] using hnext
    rw [evalPairs_cons, Action.unlessError, Action.run_bind, key]
    simpa only [isError_of_hashKey? usable, Bool.false_eq_true, if_false, hk] using hvalue

theorem PairsRun.run_hashLit {nodes : List (Node × Node)} {pairs : List (Value × Value)} {t : Token}
    {s s' : State}
    (h : PairsRun call scope nodes pairs ⟨s.store, .entered (.hashLit t nodes) scope :: s.journal⟩
      s') :
    (eval call (.hashLit t nodes) scope).run s = (.ok (.hash (entriesOf pairs)),
      ⟨s'.store, .completed (.hashLit t nodes) (.hash (entriesOf pairs)) :: s'.journal⟩) := by
  have hpairs : (evalPairs call nodes [] scope).run
      ⟨s.store, .entered (.hashLit t nodes) scope :: s.journal⟩ =
        (.ok (.hash (entriesOf pairs)), s') := h.run_evalPairs []
  rw [eval, Action.observed]
  simp only [Action.run_bind, Action.run_record, hpairs, Action.run_pure]

end

theorem inspect_entriesOf {pairs : List (Value × Value)}
    (usable : ∀ p ∈ pairs, p.1.hashKey?.isSome) (separate : Value.Separate (pairs.map (·.1))) :
    (Value.hash (entriesOf pairs)).inspect = "\x7b" ++ ", ".intercalate
      ((Value.distinct (pairs.map (·.1))).filterMap fun k =>
        (Value.lastValue? pairs k).map fun v => k.inspect ++ ": " ++ v.inspect) ++ "\x7d" := by
  let line (p : Value × Value) : String := p.1.inspect ++ ": " ++ p.2.inspect
  have hlines : Value.inspectEntries (entriesOf pairs) =
      (Value.distinct (pairs.map (·.1))).filterMap fun k =>
        (Value.lastValue? pairs k).map fun v => line (k, v) := by
    calc Value.inspectEntries (entriesOf pairs)
        = ((entriesOf pairs).map fun e => (some e.1, some e.2)).filterMap
            fun e => e.2.map line := by
          rw [Value.inspectEntries_eq_map, List.filterMap_map]
          simp [line]
      _ = _ := by
          rw [Value.map_entriesOf usable separate, List.filterMap_map]
          simp [Function.comp_def]
  rw [Value.inspect, hlines]

/-- A hash literal is a finite map. What its parts come to is put in pair by pair; then a look-up by
any key gives the value of the last pair with the same key, and nothing if there is none. The
entries are the distinct keys in the order in which they first came, each with its last value and
under its own hash key, and so they are shown. Keys of different types never meet. -/
theorem hash_is_finite_map {pairs : List (Value × Value)} {looked : List Value}
    (usable : ∀ p ∈ pairs, p.1.hashKey?.isSome)
    (separate : Value.Separate (looked ++ pairs.map (·.1))) :
    let entries := entriesOf pairs
    let keys := Value.distinct (pairs.map (·.1))
    (∀ call scope t nodes s s',
      PairsRun call scope nodes pairs ⟨s.store, .entered (.hashLit t nodes) scope :: s.journal⟩ s' →
      (eval call (.hashLit t nodes) scope).run s = (.ok (.hash entries),
        ⟨s'.store, .completed (.hashLit t nodes) (.hash entries) :: s'.journal⟩)) ∧
    (∀ k ∈ looked, ∀ hashKey, k.hashKey? = some hashKey →
      Value.stored? entries hashKey = Value.lastValue? pairs k ∧
      Value.index (.hash entries) k = (Value.lastValue? pairs k).getD .null) ∧
    entries.length = keys.length ∧
    entries.map (fun e => (some e.1, some e.2)) =
      keys.map (fun k => (k.hashKey?, (Value.lastValue? pairs k).map (k, ·))) ∧
    (Value.hash entries).inspect = "\x7b" ++ ", ".intercalate (keys.filterMap fun k =>
      (Value.lastValue? pairs k).map fun v => k.inspect ++ ": " ++ v.inspect) ++ "\x7d" ∧
    (∀ e ∈ entries, e.2.1.hashKey? = some e.1) ∧
    ∀ a b : Value, a.hashKey?.isSome → a.tag ≠ b.tag → a.hashKey? ≠ b.hashKey? := by
  have hpairs := separate.mono (List.subset_append_right _ _)
  have hentries := Value.map_entriesOf usable hpairs
  refine ⟨fun call scope t nodes s s' hrun => hrun.run_hashLit, fun k hk hashKey hhash => ?_, ?_,
    hentries, inspect_entriesOf usable hpairs, (Value.entriesOf_spec pairs).1.stored,
    fun a b ha htag heq => ?_⟩
  · have hsub : k :: pairs.map (·.1) ⊆ looked ++ pairs.map (·.1) :=
      List.cons_subset.mpr ⟨List.mem_append_left _ hk, List.subset_append_right _ _⟩
    have hstored : Value.stored? (entriesOf pairs) hashKey = Value.lastValue? pairs k := by
      rw [Value.stored?, Value.get?_entriesOf usable (separate.mono hsub) hhash]
      rfl
    refine ⟨hstored, ?_⟩
    simp only [Value.index, hhash, hstored]
  · simpa using congrArg List.length hentries
  · obtain ⟨hashKey, hhash⟩ := Option.isSome_iff_exists.mp ha
    have ha := Value.tag_of_hashKey? hhash
    have hb := Value.tag_of_hashKey? (heq ▸ hhash)
    exact htag (ha.symm.trans hb)

/-- The literal `{1: "one", true: 2, "1": 3, 1: 4}`. -/
def mixedNodes : List (Node × Node) :=
  let one : Node := .intLit ⟨.int, "1"⟩ 1
  [(one, .strLit ⟨.string, "one"⟩ "one"),
    (.boolLit ⟨.trueWord, "true"⟩ true, .intLit ⟨.int, "2"⟩ 2),
    (.strLit ⟨.string, "1"⟩ "1", .intLit ⟨.int, "3"⟩ 3), (one, .intLit ⟨.int, "4"⟩ 4)]

theorem hash_is_finite_map_mixed :
    let pairs : List (Value × Value) :=
      [(.int 1, .str "one"), (.bool true, .int 2), (.str "1", .int 3), (.int 1, .int 4)]
    let looked : List Value := [.int 1, .str "1", .str "x"]
    let hash : Value := .hash (entriesOf pairs)
    (∀ p ∈ pairs, p.1.hashKey?.isSome) ∧ Value.Separate (looked ++ pairs.map (·.1)) ∧
      ((evaluateWithin 0 (.hashLit ⟨.lbrace, "\x7b"⟩ mixedNodes) 0).run ⟨Store.empty, []⟩).1 =
        .ok hash ∧
      (entriesOf pairs).length = 3 ∧ hash.inspect = "\x7b1: 4, true: 2, 1: 3\x7d" ∧
      Value.index hash (.int 1) = .int 4 ∧ Value.index hash (.str "1") = .int 3 ∧
      Value.index hash (.str "x") = .null := by
  intro pairs looked hash
  have husable : ∀ p ∈ pairs, p.1.hashKey?.isSome := by
    simp [pairs, Value.hashKey?]
  have hseparate : Value.Separate (looked ++ pairs.map (·.1)) := by
    have hdigest : Value.stringDigest "1" ≠ Value.stringDigest "x" := by decide +kernel
    intro s t hs ht heq
    have hstring {s : String} (hs : .str s ∈ looked ++ pairs.map (·.1)) : s = "1" ∨ s = "x" := by
      simpa [looked, pairs, or_comm] using hs
    rcases hstring hs with rfl | rfl <;> rcases hstring ht with rfl | rfl
    · rfl
    · exact absurd heq hdigest
    · exact absurd heq.symm hdigest
    · rfl
  obtain ⟨hliteral, hlooked, hlength, -, hshown, -⟩ := hash_is_finite_map husable hseparate
  refine ⟨husable, hseparate, ?_, hlength, hshown, ?_, ?_, ?_⟩
  · have hrun : PairsRun (applyWithin 0) 0 mixedNodes pairs
        ⟨Store.empty, [.entered (.hashLit ⟨.lbrace, "\x7b"⟩ mixedNodes) 0]⟩ _ :=
      .cons rfl rfl rfl rfl <| .cons rfl rfl rfl rfl <| .cons rfl rfl rfl rfl <|
        .cons rfl rfl rfl rfl (.nil _)
    exact congrArg Prod.fst (hliteral _ _ _ _ ⟨Store.empty, []⟩ _ hrun)
  · exact (hlooked (.int 1) (by simp [looked]) _ rfl).2
  · exact (hlooked (.str "1") (by simp [looked]) _ rfl).2
  · exact (hlooked (.str "x") (by simp [looked]) _ rfl).2

end TreeWalk
