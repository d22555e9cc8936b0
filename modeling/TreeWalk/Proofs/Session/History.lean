import TreeWalk.Proofs.Eval.Custody
import TreeWalk.Proofs.Session.Sources

namespace TreeWalk

def eventsOf (limit : Nat) (source : String) (store : Store) : List Event :=
  match parse source with
  | .ok (program, []) => ((evaluateWithin limit program fresh.1).run ⟨store, []⟩).2.journal.reverse
  | _ => []

def historyFrom (style : Style) (limit : Nat) (store : Store) : List String → List Event
  | [] => []
  | source :: rest =>
    eventsOf limit source store ++
      historyFrom style limit ((runSource style limit source fresh.1).run store).state rest

/-- What happens while sources are run in the global scope, the first of the list first. -/
def history (style : Style) (limit : Nat) (sources : List String) : List Event :=
  historyFrom style limit fresh.2 sources

theorem eventsOf_of_parse (limit : Nat) {source : String} {program : Node}
    (h : parse source = .ok (program, [])) (store : Store) :
    eventsOf limit source store =
      ((evaluateWithin limit program fresh.1).run ⟨store, []⟩).2.journal.reverse := by
  rw [eventsOf, h]

theorem eventsOf_of_rejected (limit : Nat) {source : String}
    (h : ∀ program, parse source ≠ .ok (program, []))
    (store : Store) : eventsOf limit source store = [] := by
  unfold eventsOf
  split
  · next program hparse => exact absurd hparse (h program)
  · rfl

theorem historyFrom_append (style : Style) (limit : Nat) (store : Store)
    (earlier later : List String) :
    historyFrom style limit store (earlier ++ later) = historyFrom style limit store earlier ++
      historyFrom style limit (earlier.foldl (fun store source =>
        ((runSource style limit source fresh.1).run store).state) store) later := by
  induction earlier generalizing store with
  | nil => rfl
  | cons source earlier ih =>
    rw [List.cons_append, historyFrom, historyFrom, ih, List.append_assoc, List.foldl_cons]

/-- What the history begins with is the history of the earlier sources. -/
theorem history_append (style : Style) (limit : Nat) (earlier later : List String) :
    history style limit (earlier ++ later) = history style limit earlier ++
      historyFrom style limit (storeAfter style limit earlier) later :=
  historyFrom_append style limit fresh.2 earlier later

/-- What every run keeps and adds, all the runs keep and add, as long as the events are such as each
run may count on. -/
theorem historyFrom_induction (style : Style) (limit : Nat) (Inv : Store → Prop)
    (Given : Event → Prop) (Shown : List Event → Prop) (hnil : Shown [])
    (happend : ∀ es fs, Shown es → Shown fs → Shown (es ++ fs)) {sources : List String}
    (hrun : ∀ source ∈ sources, ∀ program, parse source = .ok (program, []) → ∀ store, Inv store →
      (∀ e ∈ eventsOf limit source store, Given e) →
        Inv ((evaluateWithin limit program fresh.1).run ⟨store, []⟩).2.store ∧
          Shown (eventsOf limit source store))
    {store : Store} (hstore : Inv store)
    (hgiven : ∀ e ∈ historyFrom style limit store sources, Given e) :
    Inv (sources.foldl
      (fun store source => ((runSource style limit source fresh.1).run store).state) store) ∧
      Shown (historyFrom style limit store sources) := by
  induction sources generalizing store with
  | nil => exact ⟨hstore, hnil⟩
  | cons source sources ih =>
    obtain ⟨hsource, hrun⟩ := List.forall_mem_cons.mp hrun
    obtain ⟨hfirst, hlater⟩ := List.forall_mem_append.mp hgiven
    have hone : Inv ((runSource style limit source fresh.1).run store).state ∧
        Shown (eventsOf limit source store) := by
      by_cases hparse : ∃ program, parse source = .ok (program, [])
      · obtain ⟨program, hparse⟩ := hparse
        rw [runSource_of_parse style limit hparse]
        exact hsource program hparse store hstore hfirst
      · have hrejected (program : Node) : parse source ≠ .ok (program, []) :=
          fun heq => hparse ⟨program, heq⟩
        rw [state_runSource_of_rejected style limit hrejected, eventsOf_of_rejected limit hrejected]
        exact ⟨hstore, hnil⟩
    obtain ⟨hinv, hshown⟩ := ih hrun hone.1 hlater
    exact ⟨hinv, happend _ _ hone.2 hshown⟩

theorem Store.holds_fresh (P : Value → Prop) : fresh.2.Holds P :=
  Store.holds_openRoot P Builtin.ofName?

section

variable {Bounded P : Value → Prop} {T : Node → Prop}

theorem custody_evaluate {limit : Nat} {program : Node}
    (hc : Custody (.evaluating program fresh.1 0) Bounded (fun _ => P) fun _ n _ => T n)
    {store : Store} (hstore : store.Holds P)
    (hbounded : ∀ n v,
      .completed n v ∈ ((evaluateWithin limit program fresh.1).run ⟨store, []⟩).2.journal →
        Bounded v) :
    ((evaluateWithin limit program fresh.1).run ⟨store, []⟩).2.store.Holds P ∧
      (∀ e ∈ ((evaluateWithin limit program fresh.1).run ⟨store, []⟩).2.journal,
        e.Satisfies P fun n _ => T n) ∧
      ∀ ok : Value → Bool, (∀ v, v.Everywhere P → ok v = true) →
        (eval (applyChecked ok limit) program fresh.1).run ⟨store, []⟩ =
          (evaluateWithin limit program fresh.1).run ⟨store, []⟩ := by
  have hknown (v : Value) (hv : Known (.evaluating program fresh.1 0)
      ((evaluateWithin limit program fresh.1).run ⟨store, []⟩).2 v) : Bounded v := by
    obtain ⟨_, n, hn⟩ := hv.resolve_left id
    exact hbounded n v hn
  have hsteps (ok : Value → Bool) :=
    steps_evaluateWithin ok limit program fresh.1 (s := ⟨store, []⟩) (Nat.zero_le _)
  have hkept := hc.steps (hsteps fun _ => true).1 (Nat.zero_le _) hknown ⟨hstore, nofun⟩
  refine ⟨hkept.store, hkept.journal, fun ok hok => ?_⟩
  refine (hsteps ok).2.resolve_right ?_
  rintro ⟨v, hv, hunfit⟩
  rw [hok v (hkept.known hc (Nat.zero_le _) hv)] at hunfit
  cases hunfit

/-- What holds of all there is along each run holds of all there is along the runs together. -/
theorem custody_history (style : Style) (limit : Nat) {sources : List String}
    (hc : ∀ source ∈ sources, ∀ program, parse source = .ok (program, []) →
      Custody (.evaluating program fresh.1 0) Bounded (fun _ => P) fun _ n _ => T n)
    (hbounded : ∀ n v, .completed n v ∈ history style limit sources → Bounded v) :
    (storeAfter style limit sources).Holds P ∧
      ∀ e ∈ history style limit sources, e.Satisfies P fun n _ => T n := by
  refine historyFrom_induction style limit (Store.Holds P)
    (fun e => ∀ n v, e = .completed n v → Bounded v)
    (fun es => ∀ e ∈ es, e.Satisfies P fun n _ => T n) (List.forall_mem_nil _)
    (fun es fs hes hfs => List.forall_mem_append.mpr ⟨hes, hfs⟩) ?_ (Store.holds_fresh P) ?_
  · intro source hsource program hparse store hstore hgiven
    rw [eventsOf_of_parse limit hparse] at hgiven ⊢
    obtain ⟨hkept, hevents, _⟩ := custody_evaluate (hc source hsource program hparse) hstore
      fun n v hv => hgiven _ (List.mem_reverse.mpr hv) n v rfl
    exact ⟨hkept, fun e he => hevents e (List.mem_reverse.mp he)⟩
  · rintro e he n v rfl
    exact hbounded n v he

end

end TreeWalk
