import Mathlib.Data.List.Induction
import TreeWalk.Proofs.Eval.Frame

/-! What a look-up finds is told by the history of the scopes alone: how they were made, and what
was bound in them, in any order. -/
namespace TreeWalk

inductive Change (β : Type := Builtin) where
  | openRoot (catalog : String → Option β)
  | enclose (outer : ScopeId)
  | bind (scope : ScopeId) (name : String) (v : Value)

namespace Change

variable {β : Type}

def makesScope : Change β → Bool
  | openRoot _ | enclose _ => true
  | bind .. => false

def Fits (k : Nat) : Change β → Prop
  | openRoot _ => True
  | enclose i | bind i _ _ => i < k

instance (k : Nat) : DecidablePred (Fits (β := β) k) := fun
  | openRoot _ => .isTrue trivial
  | enclose i | bind i _ _ => inferInstanceAs (Decidable (i < k))

def perform (st : Store β) : Change β → Store β
  | openRoot catalog => (st.openRoot catalog).2
  | enclose i => (st.enclose i).2
  | bind i name v => st.bind i name v

end Change

abbrev History (β : Type := Builtin) := List (Change β)

namespace History

variable {β : Type}

/-- How the scopes were made; the number of a scope is its place here. -/
def makings (h : History β) : List (Change β) := h.filter Change.makesScope

def replay (h : History β) : Store β := h.foldl Change.perform Store.empty

/-- Every change is made to a scope that is there by then, if there were `k` scopes before. -/
def PossibleFrom (k : Nat) : History β → Prop
  | [] => True
  | c :: h => c.Fits k ∧ PossibleFrom (if c.makesScope then k + 1 else k) h

instance decidablePossibleFrom : (k : Nat) → (h : History β) → Decidable (PossibleFrom k h)
  | _, [] => .isTrue trivial
  | k, c :: h =>
    have := decidablePossibleFrom (if c.makesScope then k + 1 else k) h
    inferInstanceAs (Decidable (c.Fits k ∧ PossibleFrom _ h))

def Possible (h : History β) : Prop := PossibleFrom 0 h

instance : DecidablePred (Possible (β := β)) := decidablePossibleFrom 0

/-- From a scope outwards: each was made inside the next one, and the last one on its own. -/
inductive Path (h : History β) : ScopeId → List ScopeId → Prop
  | root {i : ScopeId} {catalog : String → Option β}
      (made : h.makings[i]? = some (.openRoot catalog)) :
      Path h i [i]
  | inside {i j : ScopeId} {path : List ScopeId} (made : h.makings[i]? = some (.enclose j))
      (further : Path h j path) : Path h i (i :: path)

def EverBound (h : History β) (i : ScopeId) (name : String) : Prop := ∃ v, .bind i name v ∈ h

/-- The value that the name was given last in the scope. -/
def Latest (h : History β) (i : ScopeId) (name : String) (v : Value) : Prop :=
  ∃ earlier later, h = earlier ++ .bind i name v :: later ∧ ∀ w, .bind i name w ∉ later

variable {h : History β} {i j : ScopeId} {name : String} {v : Value} {path : List ScopeId}

theorem replay_concat (h : History β) (c : Change β) :
    replay (h ++ [c]) = c.perform (replay h) := by
  rw [replay, replay, List.foldl_append, List.foldl_cons, List.foldl_nil]

theorem makings_concat (h : History β) (c : Change β) :
    makings (h ++ [c]) = if c.makesScope then makings h ++ [c] else makings h := by
  cases hc : c.makesScope <;> simp [makings, hc]

theorem possibleFrom_concat (k : Nat) (h : History β) (c : Change β) :
    PossibleFrom k (h ++ [c]) ↔ PossibleFrom k h ∧ c.Fits (k + (makings h).length) := by
  induction h generalizing k with
  | nil => simp [PossibleFrom, makings]
  | cons a h ih =>
    rw [List.cons_append, PossibleFrom, PossibleFrom, ih, and_assoc]
    cases ha : a.makesScope <;> simp [makings, ha, Nat.add_assoc, Nat.add_comm 1]

theorem possible_concat (h : History β) (c : Change β) :
    Possible (h ++ [c]) ↔ Possible h ∧ c.Fits (makings h).length := by
  rw [Possible, possibleFrom_concat, Nat.zero_add]
  rfl

@[elab_as_elim]
theorem Possible.induct {P : History β → Prop} (nil : P [])
    (concat : ∀ h c, Possible h → c.Fits (makings h).length → P h → P (h ++ [c])) {h : History β}
    (possible : Possible h) : P h := by
  induction h using List.reverseRecOn with
  | nil => exact nil
  | append_singleton h c ih =>
    obtain ⟨hearlier, hc⟩ := (possible_concat h c).mp possible
    exact concat h c hearlier hc (ih hearlier)

theorem size_replay (h : History β) : (replay h).scopes.size = (makings h).length := by
  induction h using List.reverseRecOn with
  | nil => rfl
  | append_singleton h c ih =>
    rw [replay_concat, makings_concat]
    cases c with
    | openRoot catalog => simp [Change.perform, Store.openRoot, Change.makesScope, ih]
    | enclose i => simp [Change.perform, Store.size_enclose, Change.makesScope, ih]
    | bind i name v => simp [Change.perform, Store.size_bind, Change.makesScope, ih]

theorem getElem?_makings_concat {m : Change β} (hm : h.makings[i]? = some m) (c : Change β) :
    (makings (h ++ [c]))[i]? = some m := by
  rw [makings_concat]
  split
  · rwa [List.getElem?_append_left (List.getElem?_eq_some_iff.mp hm).1]
  · exact hm

theorem Path.concat (hpath : Path h i path) (c : Change β) : Path (h ++ [c]) i path := by
  induction hpath with
  | root made => exact .root (getElem?_makings_concat made c)
  | inside made _ ih => exact .inside (getElem?_makings_concat made c) ih

end History

namespace Store

theorem fixed_openRoot (st : Store β) (catalog : String → Option β) {i : ScopeId}
    (hi : i < st.scopes.size) : (st.openRoot catalog).2.fixed i = st.fixed i := by
  simp [fixed, openRoot, Array.getElem?_push, Nat.ne_of_lt hi]

theorem fixed_openRoot_self (st : Store β) (catalog : String → Option β) :
    (st.openRoot catalog).2.fixed st.scopes.size = some ([], catalog) := by
  simp [fixed, openRoot]

theorem fixed_enclose (st : Store β) (i : ScopeId) {j : ScopeId} (hj : j < st.scopes.size) :
    (st.enclose i).2.fixed j = st.fixed j := by
  rw [fixed, scopes_enclose st i hj]
  rfl

/-- A new scope sees the built-ins that the scope around it sees. -/
theorem fixed_enclose_self (st : Store β) {i : ScopeId} (hi : i < st.scopes.size) :
    ((st.enclose i).2.fixed st.scopes.size).map (·.2) = (st.fixed i).map (·.2) := by
  simp [fixed, enclose, Array.getElem?_eq_getElem hi]

theorem chain_openRoot_self (st : Store β) (catalog : String → Option β) :
    (st.openRoot catalog).2.chain st.scopes.size = [st.scopes.size] := by
  simp [chain, openRoot]

/-- No change but a binding touches what scopes bind: a new scope binds nothing. -/
theorem bindings_push (st : Store β) (i : ScopeId) {scope : Scope β}
    (hempty : scope.bindings = []) :
    Store.bindings ⟨st.scopes.push scope⟩ i = st.bindings i := by
  rcases Nat.lt_trichotomy i st.scopes.size with hlt | rfl | hgt
  · simp [bindings, Array.getElem?_push, Nat.ne_of_lt hlt]
  · simp [bindings, hempty]
  · simp [bindings, Array.getElem?_push, Nat.ne_of_gt hgt, Nat.le_of_lt hgt]

theorem bindings_openRoot (st : Store β) (catalog : String → Option β) (i : ScopeId) :
    (st.openRoot catalog).2.bindings i = st.bindings i :=
  st.bindings_push i rfl

theorem bindings_enclose_eq (st : Store β) (i j : ScopeId) :
    (st.enclose i).2.bindings j = st.bindings j := by
  refine st.bindings_push j ?_
  split <;> rfl

end Store

namespace History

variable {h : History β} {i j : ScopeId} {name : String} {v : Value} {path : List ScopeId}

theorem fixed_perform {st : Store β} (c : Change β) (hi : i < st.scopes.size) :
    (c.perform st).fixed i = st.fixed i := by
  cases c with
  | openRoot catalog => exact st.fixed_openRoot catalog hi
  | enclose j => exact st.fixed_enclose j hi
  | bind j name v => exact st.fixed_bind j i name v

/-- A scope stands in the store as the history tells: the way outwards is the one along which the
scopes were made, to ever earlier scopes, and the built-ins are those of the scope at its end. -/
structure Placed (h : History β) (st : Store β) (i : ScopeId) : Prop where
  path : Path h i (st.chain i)
  descending : (st.chain i).Pairwise (· > ·)
  le : ∀ j ∈ st.chain i, j ≤ i
  catalog : ∃ root catalog, (st.chain i).getLast? = some root ∧
    h.makings[root]? = some (.openRoot catalog) ∧ (st.fixed i).map (·.2) = some catalog

variable {st : Store β}

theorem Placed.perform (placed : Placed h st i) (hi : i < st.scopes.size) (c : Change β) :
    Placed (h ++ [c]) (c.perform st) i := by
  have hfixed := fixed_perform c hi
  have hchain := Store.chain_of_fixed hfixed
  obtain ⟨root, catalog, hlast, hmade, hcatalog⟩ := placed.catalog
  refine ⟨?_, ?_, ?_, root, catalog, ?_, getElem?_makings_concat hmade c, ?_⟩
  · rw [hchain]
    exact placed.path.concat c
  · rw [hchain]
    exact placed.descending
  · rw [hchain]
    exact placed.le
  · rw [hchain]
    exact hlast
  · rw [hfixed]
    exact hcatalog

theorem placed_openRoot (hsize : st.scopes.size = h.makings.length) (catalog : String → Option β) :
    Placed (h ++ [.openRoot catalog]) (st.openRoot catalog).2 st.scopes.size := by
  have hmade : (makings (h ++ [.openRoot catalog]))[st.scopes.size]? =
      some (.openRoot catalog) := by
    rw [makings_concat, hsize]
    exact List.getElem?_concat_length
  have hchain := st.chain_openRoot_self catalog
  refine ⟨?_, ?_, ?_, st.scopes.size, catalog, ?_, hmade, ?_⟩
  · rw [hchain]
    exact .root hmade
  · rw [hchain]
    exact List.pairwise_singleton _ _
  · rw [hchain]
    exact List.forall_mem_singleton.mpr (Nat.le_refl _)
  · rw [hchain]
    rfl
  · rw [st.fixed_openRoot_self catalog]
    rfl

theorem placed_enclose (hsize : st.scopes.size = h.makings.length) (placed : Placed h st i)
    (hi : i < st.scopes.size) :
    Placed (h ++ [.enclose i]) (st.enclose i).2 st.scopes.size := by
  have hmade : (makings (h ++ [.enclose i]))[st.scopes.size]? = some (.enclose i) := by
    rw [makings_concat, hsize]
    exact List.getElem?_concat_length
  have hlower : ∀ j ∈ st.chain i, j < st.scopes.size :=
    fun j hj => Nat.lt_of_le_of_lt (placed.le j hj) hi
  have hchain := st.chain_enclose_self hi
  obtain ⟨root, catalog, hlast, hroot, hcatalog⟩ := placed.catalog
  refine ⟨?_, ?_, ?_, root, catalog, ?_, getElem?_makings_concat hroot _, ?_⟩
  · rw [hchain]
    exact .inside hmade (placed.path.concat _)
  · rw [hchain]
    exact List.pairwise_cons.mpr ⟨hlower, placed.descending⟩
  · rw [hchain]
    exact List.forall_mem_cons.mpr ⟨Nat.le_refl _, fun j hj => Nat.le_of_lt (hlower j hj)⟩
  · rw [hchain, List.getLast?_cons, hlast]
    rfl
  · rw [st.fixed_enclose_self hi]
    exact hcatalog

/-- Every scope stands as the history tells. -/
theorem Possible.placed (possible : Possible h) :
    ∀ i < h.makings.length, Placed h (replay h) i := by
  refine Possible.induct (fun i hi => absurd hi (Nat.not_lt_zero i))
    (fun h c _ hfits ih i hi => ?_) possible
  have hsize := size_replay h
  rw [replay_concat]
  by_cases hold : i < h.makings.length
  · exact (ih i hold).perform (hsize ▸ hold) c
  · rw [makings_concat] at hi
    cases c with
    | openRoot catalog =>
      have hnew : i = (replay h).scopes.size := by
        simp [Change.makesScope] at hi
        omega
      rw [hnew]
      exact placed_openRoot hsize catalog
    | enclose j =>
      have hnew : i = (replay h).scopes.size := by
        simp [Change.makesScope] at hi
        omega
      rw [hnew]
      exact placed_enclose hsize (ih j hfits) (hsize ▸ hfits)
    | bind j name v => exact absurd hi hold

theorem latest_concat (h : History β) (c : Change β) :
    Latest (h ++ [c]) i name v ↔
      c = .bind i name v ∨ (∀ w, c ≠ .bind i name w) ∧ Latest h i name v := by
  constructor
  · rintro ⟨earlier, later, heq, hlater⟩
    rcases List.eq_nil_or_concat later with rfl | ⟨later, last, rfl⟩
    · exact .inl (List.singleton_inj.mp (List.append_inj' heq rfl).2)
    · rw [List.concat_eq_append, ← List.cons_append, ← List.append_assoc] at heq
      obtain ⟨rfl, hc⟩ := List.append_inj' heq rfl
      rw [List.concat_eq_append] at hlater
      refine .inr ⟨fun w hw => hlater w ?_, earlier, later, rfl, fun w hw => hlater w ?_⟩
      · exact List.mem_append_right _ (hc ▸ hw ▸ List.mem_singleton_self _)
      · exact List.mem_append_left _ hw
  · rintro (rfl | ⟨hother, earlier, later, rfl, hlater⟩)
    · exact ⟨h, [], rfl, fun _ => List.not_mem_nil⟩
    · refine ⟨earlier, later ++ [c], by simp, fun w hw => ?_⟩
      rcases List.mem_append.mp hw with hw | hw
      · exact hlater w hw
      · exact hother w (List.mem_singleton.mp hw).symm

/-- A name that was ever bound has a latest value. -/
theorem exists_latest_iff (h : History β) (i : ScopeId) (name : String) :
    (∃ v, Latest h i name v) ↔ EverBound h i name := by
  constructor
  · rintro ⟨v, earlier, later, rfl, -⟩
    exact ⟨v, by simp⟩
  · rintro ⟨v, hv⟩
    induction h using List.reverseRecOn with
    | nil => cases hv
    | append_singleton h c ih =>
      by_cases hc : ∃ w, c = .bind i name w
      · obtain ⟨w, hw⟩ := hc
        exact ⟨w, (latest_concat h c).mpr (.inl hw)⟩
      · have hother : ∀ w, c ≠ .bind i name w := fun w hw => hc ⟨w, hw⟩
        have hearlier : Change.bind i name v ∈ h := by
          refine (List.mem_append.mp hv).resolve_right fun hmem => ?_
          exact hother v (List.mem_singleton.mp hmem).symm
        obtain ⟨w, hw⟩ := ih hearlier
        exact ⟨w, (latest_concat h c).mpr (.inr ⟨hother, hw⟩)⟩

/-- A scope holds of each name what it was given last. -/
theorem Possible.get?_bindings (possible : Possible h) (i : ScopeId) (name : String) (v : Value) :
    ((replay h).bindings i).get? name = some v ↔ Latest h i name v := by
  refine Possible.induct ?_ (fun h c _ hfits ih => ?_) possible
  · refine ⟨nofun, ?_⟩
    rintro ⟨earlier, later, heq, -⟩
    simp at heq
  · rw [replay_concat, latest_concat, ← ih]
    cases c with
    | openRoot catalog => simp [Change.perform, Store.bindings_openRoot]
    | enclose j => simp [Change.perform, Store.bindings_enclose_eq]
    | bind j other w =>
      simp only [Change.perform, Change.bind.injEq, ne_eq]
      by_cases hj : j = i
      · subst hj
        by_cases hother : other = name
        · subst hother
          have hsize : j < (replay h).scopes.size := size_replay h ▸ hfits
          rw [Store.bindings_bind_self _ _ _ hsize, Ordered.get?_put_self]
          simp
        · rw [Store.get?_bindings_bind_ne _ _ _ _ (Ne.symm hother)]
          simp [hother]
      · rw [Store.bindings_bind_ne _ _ _ (Ne.symm hj)]
        simp [hj]

theorem Possible.get?_bindings_eq_none (possible : Possible h) (i : ScopeId) (name : String) :
    ((replay h).bindings i).get? name = none ↔ ¬ EverBound h i name := by
  rw [← exists_latest_iff, Option.eq_none_iff_forall_ne_some, not_exists]
  exact forall_congr' fun v => not_congr (possible.get?_bindings i name v)

end History

namespace Store

variable {st : Store β} {i j : ScopeId} {name other : String} {v : Value}

theorem builtin?_of_catalog {catalog : String → Option β}
    (h : (st.fixed i).map (·.2) = some catalog) (name : String) :
    st.builtin? i name = catalog name := by
  obtain ⟨p, hp, rfl⟩ := Option.map_eq_some_iff.mp h
  obtain ⟨scope, hscope, rfl⟩ := Option.map_eq_some_iff.mp hp
  rw [builtin?, hscope]
  rfl

theorem findSome?_congr {f g : ScopeId → Option Value} {is : List ScopeId}
    (h : ∀ k ∈ is, f k = g k) : is.findSome? f = is.findSome? g := by
  induction is with
  | nil => rfl
  | cons k is ih =>
    obtain ⟨hk, his⟩ := List.forall_mem_cons.mp h
    rw [List.findSome?_cons, List.findSome?_cons, hk, ih his]

/-- A binding shows neither where its scope is not on the way outwards nor behind a nearer one. -/
theorem get?_bind_of_hidden (hnodup : (st.chain i).Nodup)
    (h : other ≠ name ∨ j ∉ st.chain i ∨ ∃ near far, st.chain i = near ++ j :: far ∧
      ∃ k ∈ near, (st.bindings k).get? name ≠ none) (v : Value) :
    (st.bind j name v).get? i other = st.get? i other := by
  have hsame {is : List ScopeId} (hj : j ∉ is) (other : String) :
      is.findSome? (fun k => ((st.bind j name v).bindings k).get? other) =
        is.findSome? fun k => (st.bindings k).get? other := by
    refine findSome?_congr fun k hk => ?_
    have hne : k ≠ j := by
      rintro rfl
      exact hj hk
    rw [bindings_bind_ne st name v hne]
  rw [get?, get?, chain_bind]
  by_cases hother : other = name
  · rcases h.resolve_left (not_not_intro hother) with hj | ⟨near, far, hchain, k, hk, hbound⟩
    · exact hsame hj other
    · rw [hchain] at hnodup ⊢
      -- Nearer than `j` nothing has changed, and a look-up gets no further than that.
      have hj : j ∉ near := fun hj =>
        (List.nodup_append.mp hnodup).2.2 j hj j List.mem_cons_self rfl
      obtain ⟨w, hw⟩ := Option.ne_none_iff_exists'.mp hbound
      have hfound : (near.findSome? fun k => (st.bindings k).get? other).isSome := by
        rw [List.findSome?_isSome_iff]
        exact ⟨k, hk, by rw [hother, hw]; rfl⟩
      rw [List.findSome?_append, List.findSome?_append, hsame hj, Option.or_of_isSome hfound,
        Option.or_of_isSome hfound]
  · exact findSome?_congr fun k _ => get?_bindings_bind_ne st j k v hother

end Store

open History in
/-- What a look-up finds is told by the history of the scopes. The way outwards from a scope is the
one along which the scopes were made. A name has the value that it was given last in the nearest
scope on the way where it was ever given one, and none if there is no such scope. A binding changes
no look-up from where its scope is not on the way, or where the name is bound nearer. The catalog
that is consulted is the one that the scope at the end of the way was made with. -/
theorem lookups_follow_history {h : History β} (possible : h.Possible) {i : ScopeId}
    (hi : i < h.makings.length) :
    let st := h.replay
    let path := st.chain i
    h.Path i path ∧
    (∀ name v, st.get? i name = some v ↔
      ∃ near j far, path = near ++ j :: far ∧ (∀ k ∈ near, ¬ h.EverBound k name) ∧
        h.Latest j name v) ∧
    (∀ name, st.get? i name = none ↔ ∀ j ∈ path, ¬ h.EverBound j name) ∧
    (∀ j name v other, (other ≠ name ∨ j ∉ path ∨ ∃ near far, path = near ++ j :: far ∧
        ∃ k ∈ near, h.EverBound k name) →
      (replay (h ++ [.bind j name v])).get? i other = st.get? i other) ∧
    ∃ root catalog, path.getLast? = some root ∧ h.makings[root]? = some (.openRoot catalog) ∧
      ∀ name, st.builtin? i name = catalog name := by
  have hplaced := possible.placed i hi
  have hnone := possible.get?_bindings_eq_none
  obtain ⟨root, catalog, hlast, hmade, hcatalog⟩ := hplaced.catalog
  refine ⟨hplaced.path, fun name v => ?_, fun name => ?_, fun j name v other hhidden => ?_,
    root, catalog, hlast, hmade, Store.builtin?_of_catalog hcatalog⟩
  · rw [Store.get?, List.findSome?_eq_some_iff]
    simp only [possible.get?_bindings, hnone]
    constructor
    · rintro ⟨near, j, far, hpath, hlatest, hnear⟩
      exact ⟨near, j, far, hpath, hnear, hlatest⟩
    · rintro ⟨near, j, far, hpath, hnear, hlatest⟩
      exact ⟨near, j, far, hpath, hlatest, hnear⟩
  · rw [Store.get?, List.findSome?_eq_none_iff]
    simp only [hnone]
  · have hnodup := hplaced.descending.imp fun hlt => Nat.ne_of_gt hlt
    rw [replay_concat]
    refine Store.get?_bind_of_hidden hnodup ?_ v
    simpa only [ne_eq, hnone, not_not] using hhidden

/-- A scope inside one inside another, a name that is bound in two of them, one that is bound twice
and only after the others were made, and a scope on its own with a catalog of its own. -/
def shadowedHistory : History Nat :=
  [.openRoot fun name => if name = "answer" then some 42 else none, .enclose 0, .enclose 1,
    .bind 0 "x" (.int 1), .bind 1 "x" (.str "near"), .bind 0 "y" (.int 2), .bind 0 "y" (.int 3),
    .openRoot fun _ => some 0]

theorem lookups_follow_history_shadowed :
    (shadowedHistory.Possible ∧ 2 < shadowedHistory.makings.length) ∧
      shadowedHistory.replay.get? 2 "x" = some (.str "near") ∧
      shadowedHistory.replay.get? 2 "y" = some (.int 3) ∧
      shadowedHistory.replay.get? 2 "z" = none ∧
      (History.replay (shadowedHistory ++ [.bind 0 "x" .null])).get? 2 "x" =
        shadowedHistory.replay.get? 2 "x" ∧
      shadowedHistory.replay.builtin? 2 "answer" = some 42 := by
  have possible : shadowedHistory.Possible := by decide
  have hi : 2 < shadowedHistory.makings.length := by decide
  have hchain : shadowedHistory.replay.chain 2 = [2, 1, 0] := rfl
  have hx : shadowedHistory.Latest 1 "x" (.str "near") :=
    ⟨shadowedHistory.take 4, shadowedHistory.drop 5, rfl, by simp [shadowedHistory]⟩
  have hy : shadowedHistory.Latest 0 "y" (.int 3) :=
    ⟨shadowedHistory.take 6, shadowedHistory.drop 7, rfl, by simp [shadowedHistory]⟩
  obtain ⟨-, hfound, hnone, hhidden, root, catalog, hroot, hmade, hcatalog⟩ :=
    lookups_follow_history possible hi
  have hanswer : shadowedHistory.replay.builtin? 2 "answer" = some 42 := by
    rw [hchain] at hroot
    cases hroot
    cases hmade
    exact hcatalog "answer"
  refine ⟨⟨possible, hi⟩, (hfound _ _).mpr ⟨[2], 1, [0], hchain, ?_, hx⟩,
    (hfound _ _).mpr ⟨[2, 1], 0, [], hchain, ?_, hy⟩, (hnone _).mpr ?_,
    hhidden 0 "x" .null "x" (.inr (.inr ⟨[2, 1], [], hchain, 1, by decide, .str "near", ?_⟩)),
    hanswer⟩
  all_goals simp [History.EverBound, shadowedHistory]

end TreeWalk
