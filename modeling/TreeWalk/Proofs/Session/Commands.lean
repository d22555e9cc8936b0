import TreeWalk.CommandLine.Terminal
import TreeWalk.Proofs.Parse.Allowance
import TreeWalk.Proofs.Template
import TreeWalk.Session.Basic

/-! What adding a source, running the queue and taking the latest value reply, each as one equation.
-/
namespace TreeWalk

namespace Effect

variable {σ τ α β : Type}

@[simp] theorem run_pure (a : α) (s : σ) : (pure a : Effect σ α).run s = ⟨"", s, .ok a⟩ := rfl

@[simp] theorem run_fail (f : Fault) (s : σ) :
    (fail f : Effect σ α).run s = ⟨"", s, .error f⟩ := rfl

@[simp] theorem run_modify (f : σ → σ) (s : σ) : (modify f).run s = ⟨"", f s, .ok ()⟩ := rfl

@[simp] theorem run_printLine (text : String) (s : σ) :
    (printLine text : Effect σ Unit).run s = ⟨text ++ "\n", s, .ok ()⟩ := rfl

theorem run_bind (e : Effect σ α) (k : α → Effect σ β) (s : σ) :
    (e >>= k).run s = match (e.run s).outcome with
      | .ok a => ⟨(e.run s).printed ++ ((k a).run (e.run s).state).printed,
          ((k a).run (e.run s).state).state, ((k a).run (e.run s).state).outcome⟩
      | .error f => ⟨(e.run s).printed, (e.run s).state, .error f⟩ := rfl

theorem run_bind_of_ok {e : Effect σ α} {s s' : σ} {text : String} {a : α}
    (h : e.run s = ⟨text, s', .ok a⟩) (k : α → Effect σ β) :
    (e >>= k).run s =
      ⟨text ++ ((k a).run s').printed, ((k a).run s').state, ((k a).run s').outcome⟩ := by
  rw [run_bind, h]

theorem run_bind_of_error {e : Effect σ α} {s s' : σ} {text : String} {f : Fault}
    (h : e.run s = ⟨text, s', .error f⟩) (k : α → Effect σ β) :
    (e >>= k).run s = ⟨text, s', .error f⟩ := by
  rw [run_bind, h]

/-- A step that prints nothing and does not fail. -/
theorem run_bind_of_quiet {e : Effect σ α} {s s' : σ} {a : α} (h : e.run s = ⟨"", s', .ok a⟩)
    (k : α → Effect σ β) : (e >>= k).run s = (k a).run s' := by
  rw [run_bind_of_ok h, String.empty_append]

@[simp] theorem run_get (s : σ) : (get : Effect σ σ).run s = ⟨"", s, .ok s⟩ := rfl

@[simp] theorem run_get_bind (k : σ → Effect σ β) (s : σ) : (get >>= k).run s = (k s).run s :=
  run_bind_of_quiet (run_get s) k

@[simp] theorem run_modify_bind (f : σ → σ) (k : Unit → Effect σ β) (s : σ) :
    (modify f >>= k).run s = (k ()).run (f s) :=
  run_bind_of_quiet (run_modify f s) k

end Effect

/-- Whether the fault goes on as it is where faults are dealt with. -/
def Fault.passes : Fault → Bool
  | exit _ | beyond => true
  | _ => false

namespace Reporter

theorem run_report (message : String) (internal : Bool) (r : Reporter) :
    (report message internal).run r =
      ⟨r.reportText message internal ++ "\n", if r.fatal then r else r.cleared,
        if r.fatal then .error (.exit (some 1)) else .ok ()⟩ := by
  rw [report, Effect.run_get_bind, Effect.run_bind_of_ok (Effect.run_printLine _ r)]
  cases r.fatal <;> simp

def defectText (style : Style) (d : Defect) : String :=
  "unknown error: '" ++ style.bold d.kind ++ ": " ++ style.bold d.message ++ "'"

theorem run_settle_defect (d : Defect) (r : Reporter) :
    (settle (.defect d)).run r =
      ⟨r.reportText (defectText r.style d) true ++ "\n", if r.fatal then r else r.cleared,
        .error (if r.fatal then .exit (some 1) else .defect d)⟩ := by
  have hsettle : settle (.defect d) = Effect.get >>= fun r =>
      report (defectText r.style d) true >>= fun _ => Effect.fail (.defect d) := rfl
  rw [hsettle, Effect.run_get_bind, Effect.run_bind, run_report]
  cases r.fatal <;> simp

/-- A fault that is dealt with clears all lines in work, unless the program ends with it. -/
theorem state_settle (f : Fault) (r : Reporter) :
    ((settle f).run r).state = if f.passes || r.fatal then r else r.cleared := by
  have hreport (message : String) (internal : Bool) :
      ((report message internal).run r).state = if r.fatal then r else r.cleared := by
    rw [run_report]
  cases f with
  | told message internal => exact hreport message internal
  | rejected errors message => exact hreport message false
  | interrupted => exact hreport _ _
  | refused => exact hreport _ _
  | exit code => rfl
  | beyond => rfl
  | defect d =>
    rw [run_settle_defect]
    rfl

theorem clear_of_mem_cleared {r : Reporter} : ∀ e ∈ r.cleared.traceback, e.2 = Mark.clear := by
  intro e he
  obtain ⟨_, _, rfl⟩ := List.mem_map.mp he
  rfl

theorem style_settle (f : Fault) (r : Reporter) : ((settle f).run r).state.style = r.style := by
  rw [state_settle]
  split <;> rfl

end Reporter

namespace Session

def noted (s : Session) (line : String) (number : Int) : Session :=
  { s with reporter := s.reporter.registerLine s.path (some line) (some number) }

def unnoted (s : Session) : Session := { s with reporter := s.reporter.removeLine s.path }

theorem run_register_bind {α : Type} (line : String) (number : Int) (k : Unit → Effect Session α)
    (s : Session) : (register line number >>= k).run s = (k ()).run (s.noted line number) :=
  Effect.run_modify_bind _ k s

theorem run_clearLine (s : Session) : clearLine.run s = ⟨"", s.unnoted, .ok ()⟩ := rfl

theorem run_clearLine_bind {α : Type} (k : Unit → Effect Session α) (s : Session) :
    (clearLine >>= k).run s = (k ()).run s.unnoted :=
  Effect.run_modify_bind _ k s

def shadowWarning (style : Style) (b : Builtin) : String :=
  style.label .magenta "warning: " ++ ("'" ++ style.bold b.name ++ "' shadows a builtin function")
    ++ "\n"

theorem run_warn (r : Reporter) (b : Builtin) :
    (Reporter.warn "'\x7b\x7d' shadows a builtin function" [b.name]).run r =
      ⟨shadowWarning r.style b, r, .ok ()⟩ := by
  have htell : Fault.tell r.style "'\x7b\x7d' shadows a builtin function" [b.name] false =
      .told ("'" ++ r.style.bold b.name ++ "' shadows a builtin function") false :=
    Fault.tell_slot r.style (by decide) (by decide) (by decide) b.name false
  rw [Reporter.warn, Effect.run_get_bind, htell]
  rfl

def shadowWarnings (style : Style) (program : Node) : String :=
  String.join (((statementsOf program).filterMap shadowed?).map (shadowWarning style))

theorem run_warnShadowed (ss : List Node) (s : Session) :
    (warnShadowed ss).run s =
      ⟨String.join ((ss.filterMap shadowed?).map (shadowWarning s.reporter.style)), s, .ok ()⟩ := by
  induction ss with
  | nil => rfl
  | cons n ss ih =>
    rw [warnShadowed]
    cases hn : shadowed? n with
    | none => simp only [ih, List.filterMap_cons, hn]
    | some b =>
      have hwarn : (onReporter
          (Reporter.warn "'\x7b\x7d' shadows a builtin function" [b.name])).run s =
          ⟨shadowWarning s.reporter.style b, s, .ok ()⟩ := by
        have hrun := run_warn s.reporter b
        rw [Effect.run] at hrun
        simp only [onReporter, Effect.run, Effect.focus, hrun]
      simp only [Effect.run_bind_of_ok hwarn, ih, List.filterMap_cons, hn, List.map_cons]
      simp [String.join_cons]

def readSource (source : String) : Except Fault Node :=
  match parse source with
  | .error a => .error (.defect (.ofAbort a))
  | .ok (program, []) => .ok program
  | .ok (_, complaints) => .error (.rejection (complaints.map Complaint.message))

theorem readSource_eq_ok_iff {source : String} {program : Node} :
    readSource source = .ok program ↔ parse source = .ok (program, []) := by
  unfold readSource
  rcases parse source with a | ⟨tree, _ | ⟨c, cs⟩⟩ <;> simp

/-- A source is rejected for errors in it, or for a numeral too long to be converted. -/
theorem eq_of_readSource_eq_error {source : String} {f : Fault}
    (h : readSource source = .error f) :
    (∃ program c cs, parse source = .ok (program, c :: cs) ∧
        f = .rejected ((c :: cs).map Complaint.message)
          (Fault.rejectionText ((c :: cs).map Complaint.message))) ∨
      ∃ digits, parse source = .error (.overlong digits) ∧ f = .defect (.overlong digits) := by
  unfold readSource at h
  rcases hparse : parse source with a | ⟨program, _ | ⟨c, cs⟩⟩
  · rw [hparse] at h
    cases a with
    | overlong digits => exact .inr ⟨digits, rfl, (Except.error.inj h).symm⟩
    | exhausted => exact absurd hparse (parse_ne_exhausted source)
  · rw [hparse] at h
    cases h
  · rw [hparse] at h
    refine .inl ⟨program, c, cs, rfl, ?_⟩
    rw [← Fault.rejection_eq]
    exact (Except.error.inj h).symm

theorem run_add_of_ok {source : String} {program : Node} (h : readSource source = .ok program)
    (number : Int) (s : Session) :
    (add source number).run s =
      ⟨shadowWarnings s.reporter.style program,
        { s.unnoted with queue := s.queue ++ [(number, program)] }, .ok ()⟩ := by
  rw [readSource_eq_ok_iff] at h
  rw [add, run_register_bind, h]
  simp only [List.isEmpty_nil, if_true]
  rw [Effect.run_bind_of_ok (run_warnShadowed _ _), Effect.run_modify_bind, run_clearLine]
  simp [noted, unnoted, Reporter.registerLine, Reporter.removeLine, Reporter.mark, shadowWarnings]

theorem run_add_of_error {source : String} {f : Fault} (h : readSource source = .error f)
    (number : Int) (s : Session) :
    (add source number).run s = ⟨"", s.noted (excerpt source) number, .error f⟩ := by
  unfold readSource at h
  rw [add, run_register_bind]
  generalize parse source = r at h ⊢
  rcases r with a | ⟨program, _ | ⟨c, cs⟩⟩
  · cases h
    rfl
  · cases h
  · cases h
    rfl

theorem run_onStore {α : Type} (e : Effect Store α) (s : Session) :
    (onStore e).run s =
      ⟨(e.run s.store).printed, { s with store := (e.run s.store).state },
        (e.run s.store).outcome⟩ := rfl

theorem run_runQueue_cons (number : Int) (program : Node) (rest : List (Int × Node))
    (s : Session) :
    (runQueue ((number, program) :: rest)).run s =
      let r :=
        (Effect.ofAction s.reporter.style (evaluateWithin s.limit program s.root)).run s.store
      match r.outcome with
      | .ok v =>
        let r' := (runQueue rest).run
          { s.unnoted with queue := rest, store := r.state, results := s.results ++ [v] }
        ⟨r.printed ++ r'.printed, r'.state, r'.outcome⟩
      | .error f =>
        ⟨r.printed, { s.noted (excerpt program.text) number with queue := rest, store := r.state },
          .error f⟩ := by
  let work : Session := noted { s with queue := rest } (excerpt program.text) number
  rw [runQueue, Effect.run_modify_bind, run_register_bind, Effect.run_get_bind]
  have hstyle : work.reporter.style = s.reporter.style := rfl
  have hroot : work.root = s.root := rfl
  have hstore : work.store = s.store := rfl
  have hlimit : work.limit = s.limit := rfl
  rw [Effect.run_bind, run_onStore, hstyle, hlimit, hroot, hstore]
  generalize (Effect.ofAction s.reporter.style
    (evaluateWithin s.limit program s.root)).run s.store = r
  obtain ⟨text, store, f | v⟩ := r
  · rfl
  · simp only [Effect.run_modify_bind, run_clearLine_bind]
    simp [noted, unnoted, Reporter.registerLine, Reporter.removeLine, Reporter.mark]

theorem run_run (s : Session) : run.run s = (runQueue s.queue).run s := by
  rw [run, Effect.run_get_bind]

theorem run_pop_of_concat {s : Session} {vs : List Value} {v : Value} (h : s.results = vs ++ [v]) :
    pop.run s = ⟨"", { s with results := vs }, .ok v.inspect⟩ := by
  rw [pop, Effect.run_get_bind, h, List.getLast?_concat, Effect.run_modify_bind, Effect.run_pure, h,
    List.dropLast_concat]

theorem run_pop_of_nil {s : Session} (h : s.results = []) :
    pop.run s = ⟨"", s, .error (.defect .noResult)⟩ := by
  rw [pop, Effect.run_get_bind, h]
  rfl

/-- What a session can be told to do. -/
inductive Command where
  | add (source : String) (number : Int)
  | run
  | pop
  deriving DecidableEq, Repr

def Command.effect : Command → Effect Session (Option String)
  | add source number => do
    Session.add source number
    return none
  | run => do
    Session.run
    return none
  | pop => return some (← Session.pop)

namespace Command

theorem run_add_of_ok {source : String} {program : Node} (h : readSource source = .ok program)
    (number : Int) (s : Session) :
    (add source number).effect.run s =
      ⟨shadowWarnings s.reporter.style program,
        { s.unnoted with queue := s.queue ++ [(number, program)] }, .ok none⟩ := by
  rw [effect, Effect.run_bind_of_ok (Session.run_add_of_ok h number s)]
  simp

theorem run_add_of_error {source : String} {f : Fault} (h : readSource source = .error f)
    (number : Int) (s : Session) :
    (add source number).effect.run s = ⟨"", s.noted (excerpt source) number, .error f⟩ := by
  rw [effect, Effect.run_bind_of_error (Session.run_add_of_error h number s)]

theorem run_run (s : Session) :
    run.effect.run s =
      let r := (runQueue s.queue).run s
      ⟨r.printed, r.state, r.outcome.map fun _ => none⟩ := by
  rw [effect, Effect.run_bind, Session.run_run]
  generalize (runQueue s.queue).run s = r
  obtain ⟨text, s', f | _⟩ := r
  · rfl
  · simp [Except.map]

theorem run_pop_of_concat {s : Session} {vs : List Value} {v : Value} (h : s.results = vs ++ [v]) :
    pop.effect.run s = ⟨"", { s with results := vs }, .ok (some v.inspect)⟩ := by
  rw [effect, Effect.run_bind_of_quiet (Session.run_pop_of_concat h)]
  rfl

theorem run_pop_of_nil {s : Session} (h : s.results = []) :
    pop.effect.run s = ⟨"", s, .error (.defect .noResult)⟩ := by
  rw [effect, Effect.run_bind_of_error (Session.run_pop_of_nil h)]

end Command

/-- A command given to a session, with the reporter dealing with its fault or without. -/
structure Step where
  command : Command
  guarded : Bool
  deriving DecidableEq, Repr

def Step.effect (t : Step) : Effect Session (Option String) :=
  if t.guarded then t.command.effect.recover fun f => do
    onReporter (Reporter.settle f)
    return none
  else t.command.effect

theorem Step.run_effect_of_ok {t : Step} {s s' : Session} {text : String} {a : Option String}
    (h : t.command.effect.run s = ⟨text, s', .ok a⟩) : t.effect.run s = ⟨text, s', .ok a⟩ := by
  rw [Effect.run] at h
  unfold Step.effect
  split
  · rw [Effect.run, Effect.recover, h]
  · exact h

theorem Step.run_effect_of_error {t : Step} {s s' : Session} {text : String} {f : Fault}
    (h : t.command.effect.run s = ⟨text, s', .error f⟩) :
    t.effect.run s =
      if t.guarded then
        let r := (Reporter.settle f).run s'.reporter
        ⟨text ++ r.printed, { s' with reporter := r.state }, r.outcome.map fun _ => none⟩
      else ⟨text, s', .error f⟩ := by
  rw [Effect.run] at h
  unfold Step.effect
  split
  · rw [Effect.run, Effect.recover, h]
    simp only [bind, Effect.andThen, onReporter, Effect.focus, pure, Effect.run]
    cases (Reporter.settle f s'.reporter).outcome <;> simp [Except.map]
  · exact h

def after (s : Session) (steps : List Step) : Session :=
  steps.foldl (fun s t => (t.effect.run s).state) s

theorem after_concat (s : Session) (steps : List Step) (t : Step) :
    s.after (steps ++ [t]) = (t.effect.run (s.after steps)).state := by
  simp [after]

def transcript (s : Session) : List Step → List (Reply Session (Option String))
  | [] => []
  | t :: steps => t.effect.run s :: transcript (t.effect.run s).state steps

theorem length_transcript (s : Session) (steps : List Step) :
    (s.transcript steps).length = steps.length := by
  induction steps generalizing s with
  | nil => rfl
  | cons t steps ih => rw [transcript, List.length_cons, List.length_cons, ih]

theorem transcript_append (s : Session) (earlier later : List Step) :
    s.transcript (earlier ++ later) =
      s.transcript earlier ++ (s.after earlier).transcript later := by
  induction earlier generalizing s with
  | nil => rfl
  | cons t earlier ih =>
    rw [List.cons_append, transcript, transcript, ih, List.cons_append]
    rfl

/-- A step that leaves the session as it was makes no difference to the other replies. -/
theorem transcript_eraseIdx {s : Session} {earlier : List Step} {t : Step}
    (h : (t.effect.run (s.after earlier)).state = s.after earlier) (later : List Step) :
    (s.transcript (earlier ++ t :: later)).eraseIdx earlier.length =
      s.transcript (earlier ++ later) := by
  rw [transcript_append, transcript_append, transcript, h,
    List.eraseIdx_append_of_length_le (Nat.le_of_eq (length_transcript s earlier)),
    length_transcript, Nat.sub_self, List.eraseIdx_zero, List.tail_cons]

end Session

end TreeWalk
