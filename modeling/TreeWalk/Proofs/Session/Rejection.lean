import Mathlib
import TreeWalk.Proofs.Session.Commands

/-! Adding a source marks its line before anything can go wrong with it, and takes the mark away
when nothing did. So a rejected source is reported with its own line alone. -/
namespace TreeWalk

namespace Reporter

theorem filterMap_put {traceback : Ordered String Mark}
    (hclear : ∀ e ∈ traceback, e.2 = Mark.clear) (path : String) (m : Mark) :
    (traceback.put path m).filterMap (fun e => e.2.excerpt? e.1) = (m.excerpt? path).toList := by
  induction traceback with
  | nil =>
    simp only [Ordered.put, List.filterMap_cons, List.filterMap_nil]
    cases m.excerpt? path <;> rfl
  | cons e rest ih =>
    obtain ⟨he, hrest⟩ := List.forall_mem_cons.mp hclear
    by_cases hpath : e.1 = path
    · have hnone : rest.filterMap (fun e => e.2.excerpt? e.1) = [] := by
        refine List.filterMap_eq_nil_iff.mpr fun e he => ?_
        rw [hrest e he]
        rfl
      simp only [Ordered.put, hpath, if_true, List.filterMap_cons, hnone]
      cases m.excerpt? path <;> rfl
    · have hnone : e.2.excerpt? e.1 = none := by
        rw [he]
        rfl
      simp only [Ordered.put, hpath, if_false, List.filterMap_cons, hnone, ih hrest]

section

variable {r : Reporter} (hclear : ∀ e ∈ r.traceback, e.2 = Mark.clear)
include hclear

theorem cleared_mark (path : String) (m : Mark) :
    (r.mark path m).cleared = r.mark path .clear := by
  have hsame : r.traceback.map (fun e => (e.1, Mark.clear)) = r.traceback := by
    refine (List.map_congr_left fun e he => ?_).trans (List.map_id _)
    rw [← hclear e he]
    rfl
  simp only [cleared, mark, Ordered.map_put_const, hsame]

/-- Dealing with a fault clears the mark, unless the program ends with it. -/
theorem state_settle_mark {f : Fault} (hf : f.passes = false) (path : String) (m : Mark) :
    ((settle f).run (r.mark path m)).state = r.mark path (if r.fatal then m else .clear) := by
  have hfatal : (r.mark path m).fatal = r.fatal := rfl
  rw [state_settle, hf, Bool.false_or, hfatal, cleared_mark hclear]
  split <;> rfl

theorem reportText_mark (path : String) (m : Mark) (message : String) (internal : Bool) :
    (r.mark path m).reportText message internal =
      (m.excerpt? path).getD "" ++ (if internal then r.style.label .red "[internal] " else "")
        ++ r.style.label .red "error: " ++ message := by
  rw [reportText, excerpts, mark, filterMap_put hclear]
  cases m.excerpt? path with
  | none => simp
  | some text => simp

end

end Reporter

namespace Session

def sourceLines (path source : String) (number : Int) : String :=
  if (excerpt source).isEmpty then ""
  else "  File '" ++ path ++ "', line " ++ toString number ++ ":\n    " ++ excerpt source ++ "\n"

theorem getD_excerpt? (path source : String) (number : Int) :
    ((Mark.mk (some (excerpt source)) (some number)).excerpt? path).getD "" =
      sourceLines path source number := by
  simp only [Mark.excerpt?, sourceLines]
  split <;> rfl

/-- The reporter is the one that the session was started with, with a mark for its own file. -/
structure Marked (reporter : Reporter) (path : String) (m : Mark) (s : Session) : Prop where
  own : s.path = path
  marked : s.reporter = reporter.mark path m

theorem marked_start (reporter : Reporter) (limit : Nat) (path : String) :
    Marked reporter path .clear (start reporter limit path) := ⟨rfl, rfl⟩

section

variable {reporter : Reporter} {path : String} {m : Mark} {s : Session}

theorem Marked.noted (h : Marked reporter path m s) (line : String) (number : Int) :
    Marked reporter path ⟨some line, some number⟩ (s.noted line number) := by
  refine ⟨h.own, ?_⟩
  simp [Session.noted, h.own, h.marked, Reporter.registerLine, Reporter.mark]

theorem Marked.unnoted (h : Marked reporter path m s) :
    Marked reporter path .clear s.unnoted := by
  refine ⟨h.own, ?_⟩
  simp [Session.unnoted, h.own, h.marked, Reporter.removeLine, Reporter.mark]

theorem Marked.update (h : Marked reporter path m s) (store : Store) (queue : List (Int × Node))
    (results : List Value) :
    Marked reporter path m { s with store := store, queue := queue, results := results } :=
  ⟨h.own, h.marked⟩

theorem passes_ofHalt (style : Style) (halt : Halt) : (Fault.ofHalt style halt).passes = false := by
  cases halt with
  | refused => rfl
  | notEvaluable form =>
    have htell : Fault.tell style "cannot evaluate node of type '\x7b\x7d'" [form] true =
        .told ("cannot evaluate node of type '" ++ style.bold form ++ "'") true :=
      Fault.tell_slot style (by decide) (by decide) (by decide) form true
    rw [Fault.ofHalt, htell]
    rfl
  | nameless form => rfl

/-- What a command leaves of a mark: none where there was none, unless the command fails. -/
structure Keeps (reporter : Reporter) (path : String) (m : Mark) {α : Type}
    (r : Reply Session α) : Prop where
  exists_marked : ∃ m', Marked reporter path m' r.state ∧
    (r.outcome.isOk → m = .clear → m' = .clear)
  caught : ∀ f, r.outcome = .error f → f.passes = false

section

variable {α : Type} {m' : Mark} {text : String}

theorem Keeps.of_ok (h : Marked reporter path m' s) (hm : m = .clear → m' = .clear) (a : α) :
    Keeps reporter path m ⟨text, s, .ok a⟩ where
  exists_marked := ⟨m', h, fun _ => hm⟩
  caught f hf := by cases hf

theorem Keeps.of_error (h : Marked reporter path m' s) {f : Fault} (hf : f.passes = false) :
    Keeps reporter path m (⟨text, s, .error f⟩ : Reply Session α) where
  exists_marked := ⟨m', h, fun hok => by cases hok⟩
  caught f' hf' := by
    cases hf'
    exact hf

end

theorem Marked.runQueue (h : Marked reporter path m s) (queue : List (Int × Node)) :
    Keeps reporter path m ((Session.runQueue queue).run s) := by
  induction queue generalizing s m with
  | nil => exact .of_ok h id ()
  | cons q queue ih =>
    obtain ⟨number, program⟩ := q
    rw [run_runQueue_cons]
    have hhalt : ∀ f, ((Effect.ofAction s.reporter.style
        (evaluateWithin s.limit program s.root)).run s.store).outcome = .error f →
          f.passes = false := by
      intro f hf
      simp only [Effect.ofAction, Effect.run, Except.mapError] at hf
      split at hf
      · cases hf
        exact passes_ofHalt _ _
      · cases hf
    generalize (Effect.ofAction s.reporter.style
      (evaluateWithin s.limit program s.root)).run s.store = r at hhalt ⊢
    obtain ⟨text, store, f | v⟩ := r
    · have hnoted := h.noted (excerpt program.text) number
      exact .of_error (hnoted.update store queue s.results) (hhalt f rfl)
    · obtain ⟨⟨m', hmarked, hclear⟩, hcaught⟩ :=
        ih (h.unnoted.update store queue (s.results ++ [v]))
      exact ⟨⟨m', hmarked, fun hok _ => hclear hok rfl⟩, hcaught⟩

theorem passes_of_readSource {source : String} {f : Fault} (h : readSource source = .error f) :
    f.passes = false := by
  rcases eq_of_readSource_eq_error h with ⟨_, _, _, _, rfl⟩ | ⟨_, _, rfl⟩ <;> rfl

theorem Marked.command (h : Marked reporter path m s) (c : Command) :
    Keeps reporter path m (c.effect.run s) := by
  cases c with
  | add source number =>
    cases hread : readSource source with
    | error f =>
      rw [Command.run_add_of_error hread]
      exact .of_error (h.noted (excerpt source) number) (passes_of_readSource hread)
    | ok program =>
      rw [Command.run_add_of_ok hread]
      exact .of_ok (h.unnoted.update s.store (s.queue ++ [(number, program)]) s.results)
        (fun _ => rfl) none
  | run =>
    obtain ⟨⟨m', hmarked, hclear⟩, hcaught⟩ := h.runQueue s.queue
    rw [Command.run_run]
    generalize (Session.runQueue s.queue).run s = r at hmarked hclear hcaught ⊢
    obtain ⟨text, s', f | v⟩ := r
    · exact .of_error hmarked (hcaught f rfl)
    · exact .of_ok hmarked (hclear rfl) none
  | pop =>
    rcases List.eq_nil_or_concat s.results with hresults | ⟨vs, v, hresults⟩
    · rw [Command.run_pop_of_nil hresults]
      exact .of_error h rfl
    · rw [List.concat_eq_append] at hresults
      rw [Command.run_pop_of_concat hresults]
      exact .of_ok (h.update s.store s.queue vs) id _

variable (hclear : ∀ e ∈ reporter.traceback, e.2 = Mark.clear)
include hclear

/-- A step leaves no mark where there was none, if it is guarded and no report ends the program. -/
theorem Marked.step (h : Marked reporter path m s) (t : Step) :
    ∃ m', Marked reporter path m' (t.effect.run s).state ∧
      (t.guarded → reporter.fatal = false → m = .clear → m' = .clear) := by
  obtain ⟨⟨m', hmarked, hsame⟩, hcaught⟩ := h.command t.command
  generalize hrun : t.command.effect.run s = r at hmarked hsame hcaught
  obtain ⟨text, s', f | a⟩ := r
  · rw [Step.run_effect_of_error hrun]
    cases t.guarded with
    | false => exact ⟨m', hmarked, fun h => absurd h Bool.false_ne_true⟩
    | true =>
      have hsettle := Reporter.state_settle_mark hclear (hcaught f rfl) path m'
      rw [← hmarked.marked] at hsettle
      exact ⟨_, ⟨hmarked.own, hsettle⟩, fun _ hfatal _ => by simp [hfatal]⟩
  · rw [Step.run_effect_of_ok hrun]
    exact ⟨m', hmarked, fun _ _ => hsame rfl⟩

theorem Marked.after (h : Marked reporter path m s) (steps : List Step) :
    ∃ m', Marked reporter path m' (s.after steps) ∧
      ((∀ t ∈ steps, t.guarded) → reporter.fatal = false → m = .clear → m' = .clear) := by
  induction steps generalizing s m with
  | nil => exact ⟨m, h, fun _ _ hm => hm⟩
  | cons t steps ih =>
    obtain ⟨m', hmarked, hsame⟩ := h.step hclear t
    obtain ⟨m'', hmarked', hsame'⟩ := ih hmarked
    refine ⟨m'', hmarked', fun hguarded hfatal hm => ?_⟩
    obtain ⟨ht, hsteps⟩ := List.forall_mem_cons.mp hguarded
    exact hsame' hsteps hfatal (hsame ht hfatal hm)

theorem run_settle_rejected (hfatal : reporter.fatal = false) (source : String) (number : Int)
    (errors : List String) (message : String) :
    (Reporter.settle (.rejected errors message)).run
        (reporter.mark path ⟨some (excerpt source), some number⟩) =
      ⟨sourceLines path source number ++ reporter.style.label .red "error: " ++ message ++ "\n",
        reporter.mark path .clear, .ok ()⟩ := by
  have hsettle : Reporter.settle (.rejected errors message) = Reporter.report message false := rfl
  have hfatal' : (reporter.mark path ⟨some (excerpt source), some number⟩).fatal = false := hfatal
  rw [hsettle, Reporter.run_report, Reporter.reportText_mark hclear, getD_excerpt?, hfatal',
    Reporter.cleared_mark hclear]
  simp

theorem run_settle_defective (hfatal : reporter.fatal = false) (source : String) (number : Int)
    (d : Defect) :
    (Reporter.settle (.defect d)).run
        (reporter.mark path ⟨some (excerpt source), some number⟩) =
      ⟨sourceLines path source number ++ reporter.style.label .red "[internal] "
          ++ reporter.style.label .red "error: " ++ Reporter.defectText reporter.style d ++ "\n",
        reporter.mark path .clear, .error (.defect d)⟩ := by
  have hfatal' : (reporter.mark path ⟨some (excerpt source), some number⟩).fatal = false := hfatal
  rw [Reporter.run_settle_defect, Reporter.reportText_mark hclear, getD_excerpt?, hfatal',
    Reporter.cleared_mark hclear]
  rfl

end

theorem readSource_of_rejects {source : String} {number : Int} {s : Session} {f : Fault}
    (h : ((add source number).run s).outcome = .error f) : readSource source = .error f := by
  cases hread : readSource source with
  | error f' =>
    rw [run_add_of_error hread] at h
    cases h
    rfl
  | ok program =>
    rw [run_add_of_ok hread] at h
    cases h

section

variable {source : String} {f : Fault}

/-- A guarded source that is rejected: its fault is dealt with while its line is in work. -/
theorem run_guarded_add (h : readSource source = .error f) (number : Int) (s : Session) :
    (guarded (add source number)).run s =
      let r := (Reporter.settle f).run (s.noted (excerpt source) number).reporter
      ⟨r.printed, { s with reporter := r.state }, r.outcome⟩ := by
  have hadd := run_add_of_error h number s
  rw [Effect.run] at hadd
  rw [guarded, Effect.run, Effect.recover, hadd]
  simp only [String.empty_append]
  rfl

/-- Once the fault is dealt with, every line is cleared, unless the program ends with it. -/
theorem clear_of_settle (h : readSource source = .error f) {s : Session}
    (hfatal : s.reporter.fatal = false) (number : Int) :
    ∀ e ∈ ((Reporter.settle f).run (s.noted (excerpt source) number).reporter).state.traceback,
      e.2 = Mark.clear := by
  have hnoted : (s.noted (excerpt source) number).reporter.fatal = false := hfatal
  rw [Reporter.state_settle, passes_of_readSource h, hnoted]
  exact Reporter.clear_of_mem_cleared

variable {reporter : Reporter} {path : String} {m : Mark} {s : Session}
  (hclear : ∀ e ∈ reporter.traceback, e.2 = Mark.clear) (hfatal : reporter.fatal = false)
include hclear hfatal

/-- Once the fault is dealt with, nothing is left of the line in the reporter. -/
theorem Marked.state_settle (h : Marked reporter path m s) (hread : readSource source = .error f)
    (number : Int) :
    ((Reporter.settle f).run (s.noted (excerpt source) number).reporter).state =
      reporter.mark path .clear := by
  rw [(h.noted (excerpt source) number).marked,
    Reporter.state_settle_mark hclear (passes_of_readSource hread), hfatal,
    if_neg Bool.false_ne_true]

theorem Marked.state_rejected (h : Marked reporter path .clear s)
    (hread : readSource source = .error f) (number : Int) :
    ((Step.mk (.add source number) true).effect.run s).state = s := by
  have hstep : (Step.mk (.add source number) true).effect.run s = _ :=
    Step.run_effect_of_error (Command.run_add_of_error hread number s)
  rw [hstep]
  change { s with
    reporter := ((Reporter.settle f).run (s.noted (excerpt source) number).reporter).state } = s
  rw [h.state_settle hclear hfatal hread, ← h.marked]

end

/-- A guarded source that is rejected is reported once, with its own line alone. -/
inductive Reported (style : Style) (path source : String) (number : Int) :
    Fault → Reply Session Unit → Prop
  | errors {s : Session} {program : Node} {c : Complaint} {cs : List Complaint}
      (parsed : parse source = .ok (program, c :: cs)) :
      Reported style path source number
        (.rejected ((c :: cs).map Complaint.message)
          (Fault.rejectionText ((c :: cs).map Complaint.message)))
        ⟨sourceLines path source number ++ style.label .red "error: "
            ++ Fault.rejectionText ((c :: cs).map Complaint.message) ++ "\n", s, .ok ()⟩
  | overlong {s : Session} {digits : Nat} (parsed : parse source = .error (.overlong digits)) :
      Reported style path source number (.defect (.overlong digits))
        ⟨sourceLines path source number ++ style.label .red "[internal] "
            ++ style.label .red "error: " ++ Reporter.defectText style (.overlong digits) ++ "\n",
          s, .error (.defect (.overlong digits))⟩

theorem Marked.reported {reporter : Reporter} {path source : String} {m : Mark} {s : Session}
    {f : Fault} (h : Marked reporter path m s)
    (hclear : ∀ e ∈ reporter.traceback, e.2 = Mark.clear) (hfatal : reporter.fatal = false)
    (hread : readSource source = .error f) (number : Int) :
    Reported reporter.style path source number f ((guarded (add source number)).run s) := by
  rw [run_guarded_add hread, (h.noted (excerpt source) number).marked]
  rcases eq_of_readSource_eq_error hread with ⟨program, c, cs, hparse, rfl⟩ | ⟨digits, hparse, rfl⟩
  · rw [run_settle_rejected hclear hfatal]
    exact .errors hparse
  · rw [run_settle_defective hclear hfatal]
    exact .overlong hparse

end Session

/-- A source that is rejected leaves no trace in a session. Nothing is printed and nothing but the
reporter changes, guarded or not. Where no report ends the program, a guarded step clears every line
in work. If the session was started with no line in work as well, that step prints one report, with
the first line of the source and its number; and among guarded steps, leaving it out changes no
other reply. -/
theorem rejected_leaves_no_trace (reporter : Reporter) (limit : Nat) (path : String)
    (steps : List Session.Step) {source : String} {number : Int} {f : Fault}
    (hrejects : ((Session.add source number).run
      ((Session.start reporter limit path).after steps)).outcome = .error f) :
    let s := (Session.start reporter limit path).after steps
    let r := (Session.add source number).run s
    let g := (Session.guarded (Session.add source number)).run s
    r.printed = "" ∧ r.state = { s with reporter := r.state.reporter } ∧
    g.state = { s with reporter := g.state.reporter } ∧
    (s.reporter.fatal = false → ∀ e ∈ g.state.reporter.traceback, e.2 = Mark.clear) ∧
    ((∀ e ∈ reporter.traceback, e.2 = Mark.clear) → reporter.fatal = false →
      Session.Reported reporter.style path source number f g ∧
      ((∀ t ∈ steps, t.guarded) → ∀ later : List Session.Step,
        ((Session.start reporter limit path).transcript
            (steps ++ ⟨.add source number, true⟩ :: later)).eraseIdx steps.length =
          (Session.start reporter limit path).transcript (steps ++ later))) := by
  have hread := Session.readSource_of_rejects hrejects
  refine ⟨?_, ?_, ?_, fun hfatal => ?_, fun hclear hfatal => ?_⟩
  · rw [Session.run_add_of_error hread]
  · rw [Session.run_add_of_error hread, Session.noted]
  · rw [Session.run_guarded_add hread]
  · rw [Session.run_guarded_add hread]
    exact Session.clear_of_settle hread hfatal number
  obtain ⟨m, hmarked, hsame⟩ := (Session.marked_start reporter limit path).after hclear steps
  refine ⟨?_, fun hsteps later => ?_⟩
  · exact hmarked.reported hclear hfatal hread number
  · rw [hsame hsteps hfatal rfl] at hmarked
    exact Session.transcript_eraseIdx
      (hmarked.state_rejected hclear hfatal hread number) later

/-- A source with two errors, which would take the name of a built-in, between a run and a look at
its value. -/
theorem rejected_leaves_no_trace_shadowing :
    let start := Session.start (Reporter.start .plain false) 10 shellPath
    let steps : List Session.Step := [⟨.add "let a = 1" 1, true⟩, ⟨.run, true⟩]
    let g := (Session.guarded (Session.add "let len = (" 2)).run (start.after steps)
    ∃ f, ((Session.add "let len = (" 2).run (start.after steps)).outcome = .error f ∧
      Session.Reported .plain shellPath "let len = (" 2 f g ∧
      (∀ e ∈ g.state.reporter.traceback, e.2 = Mark.clear) ∧
      (start.transcript (steps ++ [⟨.add "let len = (" 2, true⟩, ⟨.pop, true⟩])).eraseIdx 2 =
        start.transcript (steps ++ [⟨.pop, true⟩]) := by
  have hparse : parse "let len = (" = .ok (.program [.letStmt ⟨.letWord, "let"⟩
      (.ident ⟨.ident, "len"⟩ "len") .missing], [.noOperand .eof, .expected .rparen .eof]) := by
    cbv
  have hread : Session.readSource "let len = (" =
      .error (.rejection ([.noOperand .eof, .expected .rparen .eof].map Complaint.message)) := by
    rw [Session.readSource, hparse]
  intro start steps g
  have hrejects := congrArg Reply.outcome (Session.run_add_of_error hread 2 (start.after steps))
  obtain ⟨m, hmarked, -⟩ := (Session.marked_start (Reporter.start .plain false) 10 shellPath).after
    (List.forall_mem_nil _) steps
  have hfatal : (start.after steps).reporter.fatal = false := by
    rw [hmarked.marked]
    rfl
  obtain ⟨-, -, -, hcleared, hreport⟩ :=
    rejected_leaves_no_trace (Reporter.start .plain false) 10 shellPath steps hrejects
  obtain ⟨hreported, hdeleted⟩ := hreport (List.forall_mem_nil _) rfl
  exact ⟨_, hrejects, hreported, hcleared hfatal, hdeleted (by simp [steps]) [⟨.pop, true⟩]⟩

end TreeWalk
