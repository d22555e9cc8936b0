import TreeWalk.Proofs.Session.Commands
import TreeWalk.Proofs.Session.Sources

/-! A ledger says what has become of the sources given to a session, and knows nothing but how a
source is run in the global scope. Whatever a session is told to do, it stands for a ledger that
does the same. -/
namespace TreeWalk

def repliesFrom (style : Style) (limit : Nat) (store : Store) :
    List String → List (Reply Store (Except (List Complaint) Value))
  | [] => []
  | source :: rest =>
    (runSource style limit source fresh.1).run store ::
      repliesFrom style limit ((runSource style limit source fresh.1).run store).state rest

def replies (style : Style) (limit : Nat) (sources : List String) :
    List (Reply Store (Except (List Complaint) Value)) :=
  repliesFrom style limit fresh.2 sources

def Reply.value? (r : Reply Store (Except (List Complaint) Value)) : Option Value :=
  match r.outcome with
  | .ok (.ok v) => some v
  | _ => none

theorem repliesFrom_append (style : Style) (limit : Nat) (store : Store)
    (earlier later : List String) :
    repliesFrom style limit store (earlier ++ later) = repliesFrom style limit store earlier ++
      repliesFrom style limit (earlier.foldl (fun store source =>
        ((runSource style limit source fresh.1).run store).state) store) later := by
  induction earlier generalizing store with
  | nil => rfl
  | cons source earlier ih =>
    rw [List.cons_append, repliesFrom, repliesFrom, ih, List.foldl_cons, List.cons_append]

theorem replies_append (style : Style) (limit : Nat) (earlier later : List String) :
    replies style limit (earlier ++ later) = replies style limit earlier ++
      repliesFrom style limit (storeAfter style limit earlier) later :=
  repliesFrom_append style limit fresh.2 earlier later

theorem replies_concat (style : Style) (limit : Nat) (sources : List String) (source : String) :
    replies style limit (sources ++ [source]) = replies style limit sources ++
      [(runSource style limit source fresh.1).run (storeAfter style limit sources)] :=
  replies_append style limit sources [source]

theorem storeAfter_concat (style : Style) (limit : Nat) (sources : List String) (source : String) :
    storeAfter style limit (sources ++ [source]) =
      ((runSource style limit source fresh.1).run (storeAfter style limit sources)).state := by
  simp [storeAfter]

/-- What has become of the sources given, each with the number of its line. -/
structure Ledger where
  executed : List (Int × String)
  waiting : List (Int × String)
  /-- The values of those that were run, less those that were taken. -/
  values : List Value

namespace Ledger

def store (style : Style) (limit : Nat) (executed : List (Int × String)) : Store :=
  storeAfter style limit (executed.map Prod.snd)

theorem store_concat (style : Style) (limit : Nat) (executed : List (Int × String))
    (entry : Int × String) :
    store style limit (executed ++ [entry]) =
      ((runSource style limit entry.2 fresh.1).run (store style limit executed)).state := by
  simp only [store, List.map_append, List.map_cons, List.map_nil, storeAfter_concat]

/-- Running what is waiting: what is printed, the outcome and the ledger then. -/
inductive Runs (style : Style) (limit : Nat) : Ledger → String → Except Fault Unit → Ledger → Prop
  | done {executed : List (Int × String)} {values : List Value} :
      Runs style limit ⟨executed, [], values⟩ "" (.ok ()) ⟨executed, [], values⟩
  | value {executed waiting : List (Int × String)} {values : List Value} {entry : Int × String}
      {text text' : String} {after : Store} {v : Value} {outcome : Except Fault Unit} {l : Ledger}
      (run : (runSource style limit entry.2 fresh.1).run (store style limit executed) =
        ⟨text, after, .ok (.ok v)⟩)
      (more : Runs style limit ⟨executed ++ [entry], waiting, values ++ [v]⟩ text' outcome l) :
      Runs style limit ⟨executed, entry :: waiting, values⟩ (text ++ text') outcome l
  | refused {executed waiting : List (Int × String)} {values : List Value} {entry : Int × String}
      {text : String} {after : Store}
      (run : (runSource style limit entry.2 fresh.1).run (store style limit executed) =
        ⟨text, after, .error .refused⟩) :
      Runs style limit ⟨executed, entry :: waiting, values⟩ text (.error .refused)
        ⟨executed ++ [entry], waiting, values⟩

/-- What a command does to a ledger, and what it replies. -/
inductive Does (style : Style) (limit : Nat) :
    Ledger → Session.Command → Reply Ledger (Option String) → Prop
  | accept {executed waiting : List (Int × String)} {values : List Value} {source : String}
      {number : Int} {program : Node} (accepted : Session.readSource source = .ok program) :
      Does style limit ⟨executed, waiting, values⟩ (.add source number)
        ⟨Session.shadowWarnings style program, ⟨executed, waiting ++ [(number, source)], values⟩,
          .ok none⟩
  | reject {l : Ledger} {source : String} {number : Int} {f : Fault}
      (rejected : Session.readSource source = .error f) :
      Does style limit l (.add source number) ⟨"", l, .error f⟩
  | run {l l' : Ledger} {text : String} {outcome : Except Fault Unit}
      (runs : Runs style limit l text outcome l') :
      Does style limit l .run ⟨text, l', outcome.map fun _ => none⟩
  | take {executed waiting : List (Int × String)} {values : List Value} {v : Value} :
      Does style limit ⟨executed, waiting, values ++ [v]⟩ .pop
        ⟨"", ⟨executed, waiting, values⟩, .ok (some v.inspect)⟩
  | empty {executed waiting : List (Int × String)} :
      Does style limit ⟨executed, waiting, []⟩ .pop
        ⟨"", ⟨executed, waiting, []⟩, .error (.defect .noResult)⟩

inductive Reaches (style : Style) (limit : Nat) : List Session.Command → Ledger → Prop
  | start : Reaches style limit [] ⟨[], [], []⟩
  | step {commands : List Session.Command} {l : Ledger} {c : Session.Command}
      {r : Reply Ledger (Option String)} (earlier : Reaches style limit commands l)
      (does : Does style limit l c r) :
      Reaches style limit (commands ++ [c]) r.state

def Queued (entry : Int × String) (q : Int × Node) : Prop :=
  entry.1 = q.1 ∧ parse entry.2 = .ok (q.2, [])

/-- How a session stands for a ledger. -/
structure Represents (style : Style) (limit : Nat) (l : Ledger) (s : Session) : Prop where
  styled : s.reporter.style = style
  limited : s.limit = limit
  root : s.root = fresh.1
  store : s.store = Ledger.store style limit l.executed
  queue : List.Forall₂ Queued l.waiting s.queue
  results : s.results = l.values

section

variable {style : Style} {limit : Nat} {l l' : Ledger} {s : Session}

theorem Represents.withReporter (h : Represents style limit l s) {r : Reporter}
    (hr : r.style = style) : Represents style limit l { s with reporter := r } :=
  ⟨hr, h.limited, h.root, h.store, h.queue, h.results⟩

theorem runSource_eq_ofAction (style : Style) (limit : Nat) {source : String} {program : Node}
    (h : parse source = .ok (program, [])) (scope : ScopeId) (store : Store) :
    (runSource style limit source scope).run store =
      let r := (Effect.ofAction style (evaluateWithin limit program scope)).run store
      ⟨r.printed, r.state, r.outcome.map .ok⟩ :=
  runSource_of_parse style limit h scope store

/-- Running the queue does what the ledger says. -/
theorem Represents.runQueue (h : Represents style limit l s) :
    ∃ l', Runs style limit l ((Session.runQueue s.queue).run s).printed
        ((Session.runQueue s.queue).run s).outcome l' ∧
      Represents style limit l' ((Session.runQueue s.queue).run s).state := by
  obtain ⟨executed, waiting, values⟩ := l
  induction waiting generalizing s executed values with
  | nil =>
    have hqueue : s.queue = [] := List.forall₂_nil_left_iff.mp h.queue
    rw [hqueue]
    exact ⟨_, .done, h⟩
  | cons entry waiting ih =>
    obtain ⟨⟨number, program⟩, rest, ⟨hnumber, hparse⟩, hrest, hqueue⟩ :=
      List.forall₂_cons_left_iff.mp h.queue
    replace hparse : parse entry.2 = .ok (program, []) := hparse
    have hsound : (Ledger.store style limit executed).Sound := sound_storeAfter style limit _
    have houtcome := outcome_runSource style limit hparse fresh.1 hsound
    have hstore := store_concat style limit executed entry
    have hsource :=
      runSource_eq_ofAction style limit hparse fresh.1 (Ledger.store style limit executed)
    rw [hsource] at houtcome hstore
    rw [hqueue, Session.run_runQueue_cons, h.styled, h.limited, h.root, h.store]
    generalize (Effect.ofAction style (evaluateWithin limit program fresh.1)).run
      (Ledger.store style limit executed) = r at hsource houtcome hstore ⊢
    obtain ⟨text, after, f | v⟩ := r
    · obtain ⟨v, hv⟩ | hrefused := houtcome
      · cases hv
      · cases hrefused
        exact ⟨_, .refused hsource, ⟨h.styled, h.limited, h.root, hstore.symm, hrest, h.results⟩⟩
    · have hnext : Represents style limit ⟨executed ++ [entry], waiting, values ++ [v]⟩
          { s.unnoted with queue := rest, store := after, results := s.results ++ [v] } :=
        ⟨h.styled, h.limited, h.root, hstore.symm, hrest, by rw [h.results]⟩
      obtain ⟨l', hruns, hrepresents⟩ := ih _ _ hnext
      exact ⟨l', .value hsource hruns, hrepresents⟩

/-- A command does to a session what it does to the ledger, and replies the same. -/
theorem Represents.command (h : Represents style limit l s) (c : Session.Command) :
    ∃ r, Does style limit l c r ∧ (c.effect.run s).printed = r.printed ∧
      (c.effect.run s).outcome = r.outcome ∧
      Represents style limit r.state (c.effect.run s).state := by
  cases c with
  | add source number =>
    cases hread : Session.readSource source with
    | error f =>
      rw [Session.Command.run_add_of_error hread]
      exact ⟨_, .reject hread, rfl, rfl, h.withReporter h.styled⟩
    | ok program =>
      have hparse := Session.readSource_eq_ok_iff.mp hread
      have hqueue : List.Forall₂ Queued (l.waiting ++ [(number, source)])
          (s.queue ++ [(number, program)]) :=
        List.rel_append h.queue (.cons ⟨rfl, hparse⟩ .nil)
      rw [Session.Command.run_add_of_ok hread, h.styled]
      exact ⟨_, .accept hread, rfl, rfl, ⟨h.styled, h.limited, h.root, h.store, hqueue, h.results⟩⟩
  | run =>
    obtain ⟨l', hruns, hrepresents⟩ := h.runQueue
    rw [Session.Command.run_run]
    exact ⟨_, .run hruns, rfl, rfl, hrepresents⟩
  | pop =>
    obtain ⟨executed, waiting, values⟩ := l
    rcases List.eq_nil_or_concat values with rfl | ⟨values, v, rfl⟩
    · rw [Session.Command.run_pop_of_nil h.results]
      exact ⟨_, .empty, rfl, rfl, h⟩
    · have hresults := h.results
      rw [List.concat_eq_append] at hresults ⊢
      rw [Session.Command.run_pop_of_concat hresults]
      exact ⟨_, .take, rfl, rfl, ⟨h.styled, h.limited, h.root, h.store, h.queue, rfl⟩⟩

/-- A step does to a session what its command does to the ledger. Guarding it makes a difference
only to the reply to a fault. -/
theorem Represents.step (h : Represents style limit l s) (t : Session.Step) :
    ∃ r, Does style limit l t.command r ∧ Represents style limit r.state (t.effect.run s).state ∧
      (t.guarded = false ∨ r.outcome.isOk → (t.effect.run s).printed = r.printed ∧
        (t.effect.run s).outcome = r.outcome) := by
  obtain ⟨r, hdoes, hprinted, houtcome, hrepresents⟩ := h.command t.command
  refine ⟨r, hdoes, ?_⟩
  generalize hrun : t.command.effect.run s = reply at hprinted houtcome hrepresents
  obtain ⟨text, s', f | a⟩ := reply
  · rw [Session.Step.run_effect_of_error hrun]
    cases hguarded : t.guarded with
    | false => exact ⟨hrepresents, fun _ => ⟨hprinted, houtcome⟩⟩
    | true =>
      refine ⟨hrepresents.withReporter ?_, fun hok => ?_⟩
      · rw [Reporter.style_settle, hrepresents.styled]
      · -- A fault is neither unguarded nor no fault.
        rw [← houtcome] at hok
        simp [Except.isOk, Except.toBool] at hok
  · rw [Session.Step.run_effect_of_ok hrun]
    exact ⟨hrepresents, fun _ => ⟨hprinted, houtcome⟩⟩

theorem represents_start (reporter : Reporter) (limit : Nat) (path : String) :
    Represents reporter.style limit ⟨[], [], []⟩ (Session.start reporter limit path) :=
  ⟨rfl, rfl, rfl, rfl, .nil, rfl⟩

/-- Every session stands for a ledger that its commands lead to. -/
theorem exists_represents (reporter : Reporter) (limit : Nat) (path : String)
    (steps : List Session.Step) :
    ∃ l, Reaches reporter.style limit (steps.map (·.command)) l ∧
      Represents reporter.style limit l ((Session.start reporter limit path).after steps) := by
  induction steps using List.reverseRecOn with
  | nil => exact ⟨_, .start, represents_start reporter limit path⟩
  | append_singleton steps t ih =>
    obtain ⟨l, hreaches, hrepresents⟩ := ih
    obtain ⟨r, hdoes, hstep, -⟩ := hrepresents.step t
    refine ⟨r.state, ?_, ?_⟩
    · rw [List.map_append]
      exact hreaches.step hdoes
    · rw [Session.after_concat]
      exact hstep

end

def accepted? : Session.Command → Option (Int × String)
  | .add source number => (Session.readSource source).toOption.map fun _ => (number, source)
  | _ => none

def accepted (commands : List Session.Command) : List (Int × String) := commands.filterMap accepted?

/-- No source among these is refused when they are run one after the other. -/
def NoneRefused (style : Style) (limit : Nat) (entries : List (Int × String)) : Prop :=
  ∀ r ∈ replies style limit (entries.map Prod.snd), r.outcome ≠ .error .refused

theorem NoneRefused.of_append {style : Style} {limit : Nat} {earlier later : List (Int × String)}
    (h : NoneRefused style limit (earlier ++ later)) : NoneRefused style limit earlier := by
  intro r hr
  refine h r ?_
  rw [List.map_append, replies_append]
  exact List.mem_append_left _ hr

def printed (style : Style) (limit : Nat) (entries : List (Int × String)) : String :=
  String.join ((replies style limit (entries.map Prod.snd)).map Reply.printed)

def valuesOf (style : Style) (limit : Nat) (entries : List (Int × String)) : List Value :=
  (replies style limit (entries.map Prod.snd)).filterMap Reply.value?

theorem replies_entry_concat (style : Style) (limit : Nat) (executed : List (Int × String))
    (entry : Int × String) :
    replies style limit ((executed ++ [entry]).map Prod.snd) =
      replies style limit (executed.map Prod.snd) ++
        [(runSource style limit entry.2 fresh.1).run (store style limit executed)] := by
  rw [List.map_append]
  exact replies_concat style limit _ _

section

variable {style : Style} {limit : Nat} {l l' : Ledger} {text : String} {outcome : Except Fault Unit}

theorem Runs.executed_append (h : Runs style limit l text outcome l') :
    l'.executed ++ l'.waiting = l.executed ++ l.waiting := by
  induction h with
  | done => rfl
  | value _ _ ih => simpa using ih
  | refused _ => simp

/-- Every source that was accepted is run at most once, and in order. -/
theorem Reaches.accepted_eq {commands : List Session.Command} (h : Reaches style limit commands l) :
    accepted commands = l.executed ++ l.waiting := by
  induction h with
  | start => rfl
  | @step commands l c r _ does ih =>
    rw [accepted] at ih ⊢
    rw [List.filterMap_append, ih]
    cases does with
    | accept hread => simp [accepted?, hread, Except.toOption]
    | reject hread => simp [accepted?, hread, Except.toOption]
    | run runs => exact (List.append_nil _).trans runs.executed_append.symm
    | take => simp [accepted?]
    | empty => simp [accepted?]

theorem Runs.values_eq (h : Runs style limit l text outcome l')
    (hvalues : l.values = valuesOf style limit l.executed) :
    l'.values = valuesOf style limit l'.executed := by
  rw [valuesOf] at hvalues ⊢
  induction h with
  | done => exact hvalues
  | value run _ ih =>
    apply ih
    rw [replies_entry_concat, run, List.filterMap_append, ← hvalues]
    rfl
  | refused run =>
    rw [replies_entry_concat, run, List.filterMap_append, ← hvalues]
    exact (List.append_nil _).symm

/-- Where no value is taken, all of them are there. -/
theorem Reaches.values_eq {commands : List Session.Command} (h : Reaches style limit commands l)
    (hpop : .pop ∉ commands) : l.values = valuesOf style limit l.executed := by
  induction h with
  | start => rfl
  | step _ does ih =>
    rw [List.mem_append, List.mem_singleton, not_or] at hpop
    have hvalues := ih hpop.1
    cases does with
    | accept => exact hvalues
    | reject => exact hvalues
    | run runs => exact runs.values_eq hvalues
    | take => exact absurd rfl hpop.2
    | empty => exact absurd rfl hpop.2

theorem Runs.printed_eq (h : Runs style limit l text outcome l') :
    printed style limit l'.executed = printed style limit l.executed ++ text := by
  unfold printed
  induction h with
  | done => exact String.append_empty.symm
  | value run _ ih =>
    rw [ih, replies_entry_concat, run]
    simp [String.append_assoc]
  | refused run =>
    rw [replies_entry_concat, run]
    simp

/-- Running ends early only where a source is refused. -/
theorem Runs.outcome_eq (h : Runs style limit l text outcome l')
    (hnone : NoneRefused style limit l'.executed) : outcome = .ok () ∧ l'.waiting = [] := by
  induction h with
  | done => exact ⟨rfl, rfl⟩
  | value _ _ ih => exact ih hnone
  | refused run =>
    rw [NoneRefused, replies_entry_concat, run] at hnone
    exact absurd rfl (hnone _ (List.mem_append_right _ (List.mem_singleton_self _)))

theorem Does.printed_eq {c : Session.Command} {r : Reply Ledger (Option String)}
    (h : Does style limit l c r) :
    printed style limit r.state.executed =
      printed style limit l.executed ++ if c = .run then r.printed else "" := by
  cases h with
  | run runs => exact runs.printed_eq
  | _ => exact String.append_empty.symm

end

def runText (s : Session) : List Session.Step → String
  | [] => ""
  | t :: steps =>
    (if t.command = .run then (t.effect.run s).printed else "") ++
      runText (t.effect.run s).state steps

theorem runText_concat (s : Session) (steps : List Session.Step) (t : Session.Step) :
    runText s (steps ++ [t]) = runText s steps ++
      (if t.command = .run then (t.effect.run (s.after steps)).printed else "") := by
  induction steps generalizing s with
  | nil => simp [runText, Session.after]
  | cons t' steps ih =>
    rw [List.cons_append, runText, runText, ih, String.append_assoc]
    rfl

section

variable {style : Style} {limit : Nat} {l : Ledger} {s : Session}

/-- Where nothing is refused, running the queue prints what the sources print, and empties it. -/
theorem Represents.printed_step (h : Represents style limit l s) {commands : List Session.Command}
    (hreaches : Reaches style limit commands l) (t : Session.Step)
    (hnone : NoneRefused style limit (accepted (commands ++ [t.command]))) :
    ∃ l', Reaches style limit (commands ++ [t.command]) l' ∧
      Represents style limit l' (t.effect.run s).state ∧
      printed style limit l'.executed = printed style limit l.executed ++
        (if t.command = .run then (t.effect.run s).printed else "") ∧
      (t.command = .run → l'.waiting = []) := by
  obtain ⟨r, hdoes, hrepresents, hreply⟩ := h.step t
  have hreaches' := hreaches.step hdoes
  rw [hreaches'.accepted_eq] at hnone
  refine ⟨r.state, hreaches', hrepresents, ?_⟩
  rw [hdoes.printed_eq]
  generalize t.command = c at hdoes ⊢
  cases hdoes with
  | run runs =>
    obtain ⟨rfl, hwaiting⟩ := runs.outcome_eq hnone.of_append
    exact ⟨by rw [(hreply (.inr rfl)).1], fun _ => hwaiting⟩
  | _ => exact ⟨rfl, nofun⟩

end

section

variable (reporter : Reporter) (limit : Nat) (path : String)

theorem exists_represents_printed (steps : List Session.Step)
    (hnone : NoneRefused reporter.style limit (accepted (steps.map (·.command)))) :
    ∃ l, Reaches reporter.style limit (steps.map (·.command)) l ∧
      Represents reporter.style limit l ((Session.start reporter limit path).after steps) ∧
      runText (Session.start reporter limit path) steps =
        printed reporter.style limit l.executed := by
  induction steps using List.reverseRecOn with
  | nil => exact ⟨_, .start, represents_start reporter limit path, rfl⟩
  | append_singleton steps t ih =>
    rw [List.map_append] at hnone
    have hearlier : NoneRefused reporter.style limit (accepted (steps.map (·.command))) := by
      rw [accepted, List.filterMap_append] at hnone
      exact hnone.of_append
    obtain ⟨l, hreaches, hrepresents, htext⟩ := ih hearlier
    obtain ⟨l', hreaches', hrepresents', hprinted, -⟩ := hrepresents.printed_step hreaches t hnone
    refine ⟨l', ?_, ?_, ?_⟩
    · rwa [List.map_append]
    · rwa [Session.after_concat]
    · rw [runText_concat, htext, hprinted]

/-- Where nothing is refused and no value is taken, running the queue in the end leaves what the
accepted sources leave, whenever else it was run. -/
theorem after_run {steps : List Session.Step} (hpop : .pop ∉ steps.map (·.command))
    (hnone : NoneRefused reporter.style limit (accepted (steps.map (·.command)))) (guarded : Bool) :
    let sources := accepted (steps.map (·.command))
    let s := (Session.start reporter limit path).after (steps ++ [⟨.run, guarded⟩])
    s.queue = [] ∧ s.store = store reporter.style limit sources ∧
      s.results = valuesOf reporter.style limit sources ∧
      runText (Session.start reporter limit path) (steps ++ [⟨.run, guarded⟩]) =
        printed reporter.style limit sources := by
  have hcommands : accepted (steps.map (·.command) ++ [.run]) =
      accepted (steps.map (·.command)) := by
    rw [accepted, List.filterMap_append]
    exact List.append_nil _
  obtain ⟨l, hreaches, hrepresents, htext⟩ :=
    exists_represents_printed reporter limit path steps hnone
  obtain ⟨l', hreaches', hrepresents', hprinted, hwaiting⟩ :=
    hrepresents.printed_step hreaches ⟨.run, guarded⟩ (hcommands ▸ hnone)
  have hexecuted : accepted (steps.map (·.command)) = l'.executed := by
    rw [← hcommands, hreaches'.accepted_eq, hwaiting rfl, List.append_nil]
  have hvalues : l'.values = valuesOf reporter.style limit l'.executed := by
    refine hreaches'.values_eq ?_
    rw [List.mem_append, not_or]
    exact ⟨hpop, by simp⟩
  have hqueue := hrepresents'.queue
  rw [hwaiting rfl, List.forall₂_nil_left_iff] at hqueue
  rw [hexecuted, Session.after_concat, runText_concat]
  refine ⟨hqueue, hrepresents'.store, hrepresents'.results.trans hvalues, ?_⟩
  rw [htext, hprinted]

end

end Ledger

/-- Whatever a session is told to do, it stands for a ledger that does the same: every source that
is accepted is run at most once and in order, the queue holds the programs of those not yet run, the
store is that of running the others one after the other, and the values are theirs less those taken.
And where nothing is refused and no value is taken, it makes no difference to the store, the values
or what is printed by running, whether the queue is run in between. -/
theorem session_refines_ledger (reporter : Reporter) (limit : Nat) (path : String)
    (steps : List Session.Step) :
    (∃ l, Ledger.Reaches reporter.style limit (steps.map (·.command)) l ∧
      Ledger.accepted (steps.map (·.command)) = l.executed ++ l.waiting ∧
      Ledger.Represents reporter.style limit l ((Session.start reporter limit path).after steps) ∧
      ∀ t : Session.Step, ∃ r, Ledger.Does reporter.style limit l t.command r ∧
        Ledger.Represents reporter.style limit r.state
          (t.effect.run ((Session.start reporter limit path).after steps)).state ∧
        (t.guarded = false ∨ r.outcome.isOk →
          (t.effect.run ((Session.start reporter limit path).after steps)).printed = r.printed ∧
          (t.effect.run ((Session.start reporter limit path).after steps)).outcome = r.outcome)) ∧
    ∀ steps' : List Session.Step,
      Ledger.accepted (steps'.map (·.command)) = Ledger.accepted (steps.map (·.command)) →
      .pop ∉ steps.map (·.command) → .pop ∉ steps'.map (·.command) →
      Ledger.NoneRefused reporter.style limit (Ledger.accepted (steps.map (·.command))) →
      ∀ guarded guarded' : Bool,
        let s := (Session.start reporter limit path).after (steps ++ [⟨.run, guarded⟩])
        let s' := (Session.start reporter limit path).after (steps' ++ [⟨.run, guarded'⟩])
        s'.store = s.store ∧ s'.results = s.results ∧ s'.queue = s.queue ∧
          Ledger.runText (Session.start reporter limit path) (steps' ++ [⟨.run, guarded'⟩]) =
            Ledger.runText (Session.start reporter limit path) (steps ++ [⟨.run, guarded⟩]) := by
  refine ⟨?_, fun steps' hsame hpop hpop' hnone guarded guarded' => ?_⟩
  · obtain ⟨l, hreaches, hrepresents⟩ := Ledger.exists_represents reporter limit path steps
    exact ⟨l, hreaches, hreaches.accepted_eq, hrepresents, hrepresents.step⟩
  · obtain ⟨hqueue, hstore, hresults, htext⟩ :=
      Ledger.after_run reporter limit path hpop hnone guarded
    obtain ⟨hqueue', hstore', hresults', htext'⟩ :=
      Ledger.after_run reporter limit path hpop' (hsame ▸ hnone) guarded'
    rw [hsame] at hstore' hresults' htext'
    exact ⟨hstore'.trans hstore.symm, hresults'.trans hresults.symm, hqueue'.trans hqueue.symm,
      htext'.trans htext.symm⟩

/-- Two sources, with the queue run in between. -/
def promptSteps : List Session.Step :=
  [⟨.add "let a = 1" 1, false⟩, ⟨.run, true⟩, ⟨.add "puts(a)" 3, true⟩]

def patientSteps : List Session.Step := [⟨.add "let a = 1" 1, true⟩, ⟨.add "puts(a)" 3, false⟩]

theorem session_refines_ledger_prompt :
    let start := Session.start (Reporter.start .plain false) 10 shellPath
    let s := start.after (promptSteps ++ [⟨.run, false⟩])
    let s' := start.after (patientSteps ++ [⟨.run, true⟩])
    s'.store = s.store ∧ s'.results = s.results ∧ s'.queue = s.queue ∧
      Ledger.runText start (patientSteps ++ [⟨.run, true⟩]) =
        Ledger.runText start (promptSteps ++ [⟨.run, false⟩]) := by
  have hprompt : Ledger.accepted (promptSteps.map (·.command)) =
      [(1, "let a = 1"), (3, "puts(a)")] := by
    cbv
  have hpatient : Ledger.accepted (patientSteps.map (·.command)) =
      [(1, "let a = 1"), (3, "puts(a)")] := by
    cbv
  have hfirst : ((runSource .plain 10 "let a = 1" fresh.1).run fresh.2).outcome =
      .ok (.ok (.int 1)) := by
    cbv
  have hsecond : ((runSource .plain 10 "puts(a)" fresh.1).run
      ((runSource .plain 10 "let a = 1" fresh.1).run fresh.2).state).outcome = .ok (.ok .null) := by
    cbv
  have hnone : Ledger.NoneRefused .plain 10 [(1, "let a = 1"), (3, "puts(a)")] := by
    intro r hr
    simp only [replies, repliesFrom, List.map_cons, List.map_nil, List.mem_cons, List.not_mem_nil,
      or_false] at hr
    rcases hr with rfl | rfl
    · simp [hfirst]
    · simp [hsecond]
  obtain ⟨-, hschedule⟩ :=
    session_refines_ledger (Reporter.start .plain false) 10 shellPath promptSteps
  rw [← hprompt] at hnone
  exact hschedule patientSteps (hpatient.trans hprompt.symm) (by simp [promptSteps])
    (by simp [patientSteps]) hnone false true

end TreeWalk
