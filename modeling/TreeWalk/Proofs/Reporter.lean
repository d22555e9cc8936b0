import Mathlib.Data.List.Induction
import TreeWalk.Proofs.Session.Commands

/-! What a reporter remembers is told by the calls made to it, each of which may clear what earlier
ones have registered. -/
namespace TreeWalk

def Reply.fault? {σ α : Type} (r : Reply σ α) : Option Fault :=
  match r.outcome with
  | .ok _ => none
  | .error f => some f

theorem Effect.run_recover {σ α : Type} (e : Effect σ α) (handle : Fault → Effect σ α) (s : σ) :
    (e.recover handle).run s = match (e.run s).outcome with
      | .ok a => ⟨(e.run s).printed, (e.run s).state, .ok a⟩
      | .error f => ⟨(e.run s).printed ++ ((handle f).run (e.run s).state).printed,
          ((handle f).run (e.run s).state).state, ((handle f).run (e.run s).state).outcome⟩ := rfl

namespace Reporter

inductive Call where
  | registerFile (path : String)
  | registerLine (path : String) (line : Option String) (number : Option Int)
  | removeLine (path : String)
  | setFatal (fatal : Bool)
  | warn (template : String) (exprs : List String)
  | throw (f : Fault)
  /-- A guarded block in which nothing happens but that a fault comes up, if any. -/
  | block (raised : Option Fault)
  deriving DecidableEq, Repr

namespace Call

def effect : Call → Effect Reporter Unit
  | registerFile path => Effect.modify (·.registerFile path)
  | registerLine path line number => Effect.modify (·.registerLine path line number)
  | removeLine path => Effect.modify (·.removeLine path)
  | setFatal fatal => Effect.modify (·.setFatal fatal)
  | warn template exprs => Reporter.warn template exprs
  | throw f => reportFault f
  | block none => guarded (pure ())
  | block (some f) => guarded (Effect.fail f)

def mark? : Call → Option (String × Mark)
  | registerFile path | removeLine path => some (path, .clear)
  | registerLine path line number => some (path, ⟨line, number⟩)
  | _ => none

def path? (c : Call) : Option String := c.mark?.map (·.1)

def flag? : Call → Option Bool
  | setFatal fatal => some fatal
  | _ => none

def notice? (style : Style) : Call → Option (String × Bool)
  | throw (.told m internal) | block (some (.told m internal)) => some (m, internal)
  | throw (.rejected _ m) | block (some (.rejected _ m)) => some (m, false)
  | block (some .interrupted) => some ("keyboard interrupt", false)
  | block (some .refused) => some ("maximum recursion depth exceeded", false)
  | block (some (.defect d)) => some (defectText style d, true)
  | _ => none

/-- How a call ends that does not end the program: a defect goes on when it has been reported. -/
def ending : Call → Except Fault Unit
  | block (some (.defect d)) => .error (.defect d)
  | _ => .ok ()

end Call

/-- The reporter after these calls, the first of the list first, whatever faults they ended with. -/
def after (r : Reporter) (calls : List Call) : Reporter :=
  calls.foldl (fun r c => (c.effect.run r).state) r

def fatalAfter (fatal : Bool) (calls : List Call) : Bool :=
  (calls.filterMap Call.flag?).getLastD fatal

/-- A line stands that was registered for the path when neither has a call registered the path since
nor a report been made that did not end the program. -/
def Stands (style : Style) (fatal : Bool) (calls : List Call) (path : String) (m : Mark) : Prop :=
  ∃ earlier line number later, calls = earlier ++ .registerLine path line number :: later ∧
    m = ⟨line, number⟩ ∧ (∀ c ∈ later, c.path? ≠ some path) ∧
    ∀ before c behind, later = before ++ c :: behind → (c.notice? style).isSome →
      fatalAfter fatal (earlier ++ .registerLine path line number :: before) = true

structure Shown where
  path : String
  line : String
  number : Option Int
  deriving DecidableEq, Repr

def Shown.text (s : Shown) : String :=
  "  File '" ++ s.path ++ "', line " ++ (s.number.map toString).getD "None" ++ ":\n    " ++ s.line
    ++ "\n"

/-- What is printed for a message after these calls: the lines that stand and are not empty, in the
order of their paths, with a heading if there are several, and then the message. -/
structure Prints (style : Style) (fatal : Bool) (calls : List Call) (paths : List String)
    (message : String) (internal : Bool) (shown : List Shown) (text : String) : Prop where
  order : (shown.map Shown.path).Sublist paths
  mem_iff : ∀ s, s ∈ shown ↔ s.line ≠ "" ∧ Stands style fatal calls s.path ⟨some s.line, s.number⟩
  text_eq : text = (if 2 ≤ shown.length then "Traceback:\n" else "")
    ++ String.join (shown.map Shown.text)
    ++ (if internal then style.label .red "[internal] " else "")
    ++ style.label .red "error: " ++ message ++ "\n"

section

variable (r : Reporter)

theorem state_warn (template : String) (exprs : List String) :
    ((warn template exprs).run r).state = r := by
  rw [warn, Effect.run_get_bind]
  split <;> rfl

theorem state_reportFault (f : Fault) : ((reportFault f).run r).state =
    if ((Call.throw f).notice? r.style).isSome && !r.fatal then r.cleared else r := by
  cases f with
  | told message internal | rejected errors message =>
    rw [reportFault, run_report]
    cases r.fatal <;> rfl
  | interrupted | refused | exit code | defect d | beyond => rfl

theorem run_block_none : (Call.block none).effect.run r = ⟨"", r, .ok ()⟩ := rfl

theorem run_block_some (f : Fault) :
    (Call.block (some f)).effect.run r = (settle f).run r := by
  simp only [Call.effect, guarded, Effect.run, Effect.recover, Effect.fail, String.empty_append]

/-- A guarded block is what happens in it, and then a block in which only its fault comes up. -/
theorem run_guarded (e : Effect Reporter Unit) :
    (guarded e).run r =
      let q := e.run r
      let b := (Call.block q.fault?).effect.run q.state
      ⟨q.printed ++ b.printed, b.state, b.outcome⟩ := by
  rw [guarded, Effect.run_recover]
  generalize e.run r = q
  obtain ⟨text, s, f | a⟩ := q
  · simp only [Reply.fault?, run_block_some]
  · simp only [Reply.fault?, run_block_none, String.append_empty]

/-- A call that reports something: what is printed, and that the report ends the program or clears
all lines in work. -/
theorem run_of_notice {c : Call} {message : String} {internal : Bool}
    (h : c.notice? r.style = some (message, internal)) :
    c.effect.run r =
      ⟨r.reportText message internal ++ "\n", if r.fatal then r else r.cleared,
        if r.fatal then .error (.exit (some 1)) else c.ending⟩ := by
  cases c with
  | throw f =>
    cases f with
    | told _ _ =>
      cases h
      exact run_report message internal r
    | rejected _ _ =>
      cases h
      exact run_report message false r
    | _ => cases h
  | block raised =>
    cases raised with
    | none => cases h
    | some f =>
      rw [run_block_some]
      cases f with
      | defect d =>
        cases h
        rw [run_settle_defect]
        cases r.fatal <;> rfl
      | exit _ | beyond => cases h
      | told _ _ =>
        cases h
        exact run_report message internal r
      | rejected _ _ =>
        cases h
        exact run_report message false r
      | interrupted =>
        cases h
        exact run_report "keyboard interrupt" false r
      | refused =>
        cases h
        exact run_report "maximum recursion depth exceeded" false r
  | _ => cases h

theorem isSome_notice?_block (style : Style) (f : Fault) :
    ((Call.block (some f)).notice? style).isSome = !f.passes := by
  cases f <;> rfl

/-- All that a call can do to the reporter. -/
theorem state_effect (c : Call) : (c.effect.run r).state =
    match c.mark?, c.flag? with
    | some (path, m), _ => r.mark path m
    | none, some fatal => r.setFatal fatal
    | none, none => if (c.notice? r.style).isSome && !r.fatal then r.cleared else r := by
  cases c with
  | registerFile path | registerLine path line number | removeLine path | setFatal fatal => rfl
  | warn template exprs => exact state_warn r template exprs
  | throw f => exact state_reportFault r f
  | block raised =>
    cases raised with
    | none => rfl
    | some f =>
      rw [run_block_some, state_settle]
      simp only [Call.mark?, Call.flag?, isSome_notice?_block]
      cases f.passes <;> cases r.fatal <;> rfl

theorem style_effect (c : Call) : (c.effect.run r).state.style = r.style := by
  rw [state_effect]
  split
  · rfl
  · rfl
  · split <;> rfl

theorem fatal_effect (c : Call) : (c.effect.run r).state.fatal = c.flag?.getD r.fatal := by
  rw [state_effect]
  cases c with
  | setFatal fatal => rfl
  | registerFile path | registerLine path line number | removeLine path => rfl
  | _ =>
    simp only [Call.mark?, Call.flag?]
    split <;> rfl

theorem traceback_effect (c : Call) : (c.effect.run r).state.traceback =
    match c.mark? with
    | some (path, m) => r.traceback.put path m
    | none =>
      if (c.notice? r.style).isSome && !r.fatal then r.traceback.map fun e => (e.1, .clear)
      else r.traceback := by
  rw [state_effect]
  cases c with
  | setFatal fatal => rfl
  | registerFile path | registerLine path line number | removeLine path => rfl
  | _ =>
    simp only [Call.mark?, Call.flag?]
    split <;> rfl

theorem notice?_of_mark? {c : Call} {entry : String × Mark} (h : c.mark? = some entry)
    (style : Style) : c.notice? style = none := by
  cases c with
  | registerFile path | registerLine path line number | removeLine path => rfl
  | _ => cases h

end

variable {style : Style} {fatal : Bool} {calls : List Call} {path : String} {m : Mark}

theorem after_concat (r : Reporter) (calls : List Call) (c : Call) :
    r.after (calls ++ [c]) = (c.effect.run (r.after calls)).state := by
  simp [after]

theorem style_after (r : Reporter) (calls : List Call) : (r.after calls).style = r.style := by
  induction calls using List.reverseRecOn with
  | nil => rfl
  | append_singleton calls c ih => rw [after_concat, style_effect, ih]

theorem fatal_after (r : Reporter) (calls : List Call) :
    (r.after calls).fatal = fatalAfter r.fatal calls := by
  induction calls using List.reverseRecOn with
  | nil => rfl
  | append_singleton calls c ih =>
    rw [after_concat, fatal_effect, ih, fatalAfter, fatalAfter, List.filterMap_append]
    cases hc : c.flag? with
    | none => simp [hc]
    | some fatal => simp [hc]

theorem traceback_concat (style : Style) (fatal : Bool) (calls : List Call) (c : Call) :
    ((start style fatal).after (calls ++ [c])).traceback =
      match c.mark? with
      | some (path, m) => ((start style fatal).after calls).traceback.put path m
      | none =>
        if (c.notice? style).isSome && !fatalAfter fatal calls then
          ((start style fatal).after calls).traceback.map fun e => (e.1, .clear)
        else ((start style fatal).after calls).traceback := by
  rw [after_concat, traceback_effect, style_after, fatal_after]
  rfl

theorem eraseDups_concat {α : Type} [DecidableEq α] (l : List α) (a : α) :
    (l ++ [a]).eraseDups = if a ∈ l then l.eraseDups else l.eraseDups ++ [a] := by
  rw [List.eraseDups_append]
  by_cases h : a ∈ l
  · simp [List.removeAll, h]
  · simp [List.removeAll, h, List.eraseDups_cons]

theorem keys_after (style : Style) (fatal : Bool) (calls : List Call) :
    ((start style fatal).after calls).traceback.keys =
      (calls.filterMap Call.path?).eraseDups := by
  induction calls using List.reverseRecOn with
  | nil => rfl
  | append_singleton calls c ih =>
    rw [traceback_concat, List.filterMap_append]
    cases hc : c.mark? with
    | none =>
      have hpath : [c].filterMap Call.path? = [] := by simp [Call.path?, hc]
      rw [hpath, List.append_nil, ← ih]
      dsimp only
      split
      · exact Ordered.keys_map_const _ _
      · rfl
    | some entry =>
      have hpath : [c].filterMap Call.path? = [entry.1] := by simp [Call.path?, hc]
      rw [hpath, eraseDups_concat, Ordered.keys_put, ih]
      simp only [List.mem_eraseDups]

theorem nodup_keys_after (style : Style) (fatal : Bool) (calls : List Call) :
    ((start style fatal).after calls).traceback.keys.Nodup := by
  induction calls using List.reverseRecOn with
  | nil => exact List.nodup_nil
  | append_singleton calls c ih =>
    rw [traceback_concat]
    split
    · exact Ordered.nodup_keys_put ih _ _
    · split
      · rwa [Ordered.keys_map_const]
      · exact ih

/-- What stands after one more call. -/
theorem stands_concat (calls : List Call) (c : Call) :
    Stands style fatal (calls ++ [c]) path m ↔
      (∃ line number, c = .registerLine path line number ∧ m = ⟨line, number⟩) ∨
      c.path? ≠ some path ∧ ((c.notice? style).isSome → fatalAfter fatal calls = true) ∧
        Stands style fatal calls path m := by
  constructor
  · rintro ⟨earlier, line, number, later, heq, hm, hpath, hreport⟩
    rcases List.eq_nil_or_concat later with rfl | ⟨later, last, rfl⟩
    · exact .inl ⟨line, number, List.singleton_inj.mp (List.append_inj' heq rfl).2, hm⟩
    · rw [List.concat_eq_append] at heq hpath hreport
      rw [← List.cons_append, ← List.append_assoc] at heq
      obtain ⟨rfl, hlast⟩ := List.append_inj' heq rfl
      obtain rfl := List.singleton_inj.mp hlast
      refine .inr ⟨hpath c (by simp), hreport later c [] rfl, earlier, line, number, later, rfl, hm,
        fun d hd => hpath d (List.mem_append_left _ hd), ?_⟩
      rintro before d behind rfl hd
      exact hreport before d (behind ++ [c]) (by simp) hd
  · rintro (⟨line, number, rfl, hm⟩ | ⟨hc, hnotice, earlier, line, number, later, rfl, hm, hpath,
      hreport⟩)
    · exact ⟨calls, line, number, [], rfl, hm, nofun, by simp⟩
    · refine ⟨earlier, line, number, later ++ [c], by simp, hm, fun d hd => ?_, ?_⟩
      · rcases List.mem_append.mp hd with hd | hd
        · exact hpath d hd
        · rwa [List.mem_singleton.mp hd]
      · intro before d behind heq hd
        rcases List.eq_nil_or_concat behind with rfl | ⟨behind, last, rfl⟩
        · obtain ⟨rfl, hlast⟩ := List.append_inj' heq rfl
          obtain rfl := List.singleton_inj.mp hlast
          exact hnotice hd
        · rw [List.concat_eq_append, ← List.cons_append, ← List.append_assoc] at heq
          obtain ⟨rfl, -⟩ := List.append_inj' heq rfl
          exact hreport before d behind rfl hd

theorem path?_of_mark? {c : Call} {m' : Mark} (h : c.mark? = some (path, m')) :
    c.path? = some path := by
  rw [Call.path?, h]
  rfl

theorem Stands.get?_after (h : Stands style fatal calls path m) :
    ((start style fatal).after calls).traceback.get? path = some m := by
  induction calls using List.reverseRecOn with
  | nil =>
    obtain ⟨earlier, line, number, later, heq, -⟩ := h
    simp at heq
  | append_singleton calls c ih =>
    rw [traceback_concat]
    rcases (stands_concat calls c).mp h with ⟨line, number, rfl, rfl⟩ | ⟨hpath, hnotice, hearlier⟩
    · exact Ordered.get?_put_self _ _ _
    · split
      · next p m' hc =>
        have hne : path ≠ p := by
          rintro rfl
          exact hpath (path?_of_mark? hc)
        rw [Ordered.get?_put_ne _ _ hne, ih hearlier]
      · have hkeeps : ((c.notice? style).isSome && !fatalAfter fatal calls) = false := by
          simpa using hnotice
        rw [hkeeps, if_neg Bool.false_ne_true, ih hearlier]

theorem stands_of_get?_after
    (h : ((start style fatal).after calls).traceback.get? path = some m) (hm : m ≠ .clear) :
    Stands style fatal calls path m := by
  induction calls using List.reverseRecOn with
  | nil => cases h
  | append_singleton calls c ih =>
    rw [traceback_concat] at h
    rw [stands_concat]
    split at h
    · next p m' hc =>
      by_cases hp : path = p
      · -- The call registers the path, with a line since the mark is not clear.
        subst hp
        rw [Ordered.get?_put_self] at h
        cases h
        cases c with
        | registerLine p' line number =>
          cases hc
          exact .inl ⟨line, number, rfl, rfl⟩
        | registerFile p' | removeLine p' =>
          cases hc
          exact absurd rfl hm
        | _ => cases hc
      · rw [Ordered.get?_put_ne _ _ hp] at h
        have hpath : c.path? ≠ some path := by
          rw [path?_of_mark? hc]
          exact fun heq => hp (Option.some.inj heq).symm
        exact .inr ⟨hpath, by simp [notice?_of_mark? hc], ih h⟩
    · next hc =>
      have hpath : c.path? ≠ some path := by simp [Call.path?, hc]
      split at h
      · rw [Ordered.get?_map_const] at h
        obtain ⟨_, -, rfl⟩ := Option.map_eq_some_iff.mp h
        exact absurd rfl hm
      · next hkeeps => exact .inr ⟨hpath, by simpa using hkeeps, ih h⟩

/-- Under a path that was registered is the line that stands for it, and none where none stands. -/
theorem get?_after_iff (style : Style) (fatal : Bool) (calls : List Call) (path : String)
    (m : Mark) :
    ((start style fatal).after calls).traceback.get? path = some m ↔
      Stands style fatal calls path m ∨
      path ∈ ((start style fatal).after calls).traceback.keys ∧ m = .clear ∧
        ∀ m', ¬ Stands style fatal calls path m' := by
  constructor
  · intro h
    by_cases hstands : ∃ m', Stands style fatal calls path m'
    · obtain ⟨m', hm'⟩ := hstands
      obtain rfl : m' = m := Option.some.inj (hm'.get?_after.symm.trans h)
      exact .inl hm'
    · have hclear : m = .clear :=
        Classical.byContradiction fun hm => hstands ⟨m, stands_of_get?_after h hm⟩
      refine .inr ⟨(Ordered.isSome_get?_iff _ _).mp (by rw [h]; rfl), hclear, ?_⟩
      exact not_exists.mp hstands
  · rintro (h | ⟨hmem, rfl, hnone⟩)
    · exact h.get?_after
    · obtain ⟨m', hm'⟩ := Option.isSome_iff_exists.mp ((Ordered.isSome_get?_iff _ _).mpr hmem)
      have hclear : m' = .clear :=
        Classical.byContradiction fun hm => hnone m' (stands_of_get?_after hm' hm)
      rw [hm', hclear]

def shown (traceback : Ordered String Mark) : List Shown :=
  traceback.filterMap fun e => (e.2.line.filter (· ≠ "")).map fun line => ⟨e.1, line, e.2.number⟩

theorem mem_shown_iff (traceback : Ordered String Mark) (s : Shown) :
    s ∈ shown traceback ↔ s.line ≠ "" ∧ (s.path, ⟨some s.line, s.number⟩) ∈ traceback := by
  obtain ⟨path, line, number⟩ := s
  simp only [shown, List.mem_filterMap, Option.map_eq_some_iff, Option.filter_eq_some_iff]
  constructor
  · rintro ⟨⟨p, m⟩, hmem, line', ⟨hline, hne⟩, heq⟩
    cases heq
    obtain ⟨l, n⟩ := m
    cases hline
    exact ⟨by simpa using hne, hmem⟩
  · rintro ⟨hne, hmem⟩
    exact ⟨_, hmem, line, ⟨rfl, by simpa using hne⟩, rfl⟩

theorem paths_shown_sublist (traceback : Ordered String Mark) :
    ((shown traceback).map Shown.path).Sublist traceback.keys := by
  induction traceback with
  | nil => exact List.Sublist.slnil
  | cons e rest ih =>
    rw [shown, List.filterMap_cons]
    split
    · exact ih.cons _
    · next s hs =>
      obtain ⟨line, -, rfl⟩ := Option.map_eq_some_iff.mp hs
      exact ih.cons_cons _

theorem excerpt?_eq (path : String) (m : Mark) :
    m.excerpt? path =
      ((m.line.filter (· ≠ "")).map fun line => Shown.mk path line m.number).map Shown.text := by
  obtain ⟨line, number⟩ := m
  cases line with
  | none => rfl
  | some line =>
    by_cases h : line = ""
    · simp [Mark.excerpt?, Option.filter, h]
    · simp [Mark.excerpt?, Option.filter, h, Shown.text]

theorem excerpts_eq (r : Reporter) : r.excerpts = (shown r.traceback).map Shown.text := by
  rw [excerpts, shown, List.map_filterMap]
  simp only [excerpt?_eq]

/-- The lines that a report shows are those that stand and are not empty. -/
theorem prints_after (style : Style) (fatal : Bool) (calls : List Call) (message : String)
    (internal : Bool) :
    let r := (start style fatal).after calls
    Prints style fatal calls r.traceback.keys message internal (shown r.traceback)
      (r.reportText message internal ++ "\n") := by
  intro r
  refine ⟨paths_shown_sublist _, fun s => ?_, ?_⟩
  · rw [mem_shown_iff, Ordered.mem_iff_get? (nodup_keys_after style fatal calls)]
    exact and_congr_right fun _ => ⟨fun h => stands_of_get?_after h nofun, Stands.get?_after⟩
  · have hstyle : r.style = style := style_after _ calls
    rw [reportText, excerpts_eq, List.length_map, hstyle]
    rfl

/-- The path that came first is shown first, whenever its line was registered. -/
example :
    ((Call.throw (.told "oops" false)).effect.run ((start .plain false).after
      [.registerFile "a", .registerLine "b" (some "f(") none, .registerLine "a" (some "x") (some 3)]
      )).printed =
        "Traceback:\n  File 'a', line 3:\n    x\n  File 'b', line None:\n    f(\nerror: oops\n" := by
  decide

end Reporter

open Reporter in
/-- What a reporter remembers is told by the calls made to it: every path that was ever registered,
in the order in which the paths first came, each with the line that was registered last, unless
something has cleared it since. A report shows just the lines that are not empty, and clears every
line unless it ends the program. A guarded block is what happens in it and then the report of its
fault, behind which a defect goes on; an exit passes as it is. -/
theorem marks_follow_calls (style : Style) (fatal : Bool) (calls : List Call) :
    let r := (start style fatal).after calls
    r.fatal = fatalAfter fatal calls ∧
    r.traceback.keys = (calls.filterMap Call.path?).eraseDups ∧
    (∀ more, r.traceback.keys <+: ((start style fatal).after (calls ++ more)).traceback.keys) ∧
    (∀ path m, r.traceback.get? path = some m ↔
      Stands style fatal calls path m ∨
        path ∈ r.traceback.keys ∧ m = .clear ∧ ∀ m', ¬ Stands style fatal calls path m') ∧
    (∀ (c : Call) message internal, c.notice? style = some (message, internal) →
      let reply := c.effect.run r
      (∃ shown, Prints style fatal calls r.traceback.keys message internal shown reply.printed) ∧
      (r.fatal = true → reply.state = r ∧ reply.outcome = .error (.exit (some 1))) ∧
      (r.fatal = false →
        reply.state.traceback.keys = r.traceback.keys ∧
        (∀ e ∈ reply.state.traceback, e.2 = .clear) ∧
        reply.outcome = c.ending)) ∧
    (∀ f : Fault, match f with
      | .exit _ => (Call.block (some f)).effect.run r = ⟨"", r, .error f⟩
      | .beyond => True
      | .defect d => (Call.block (some f)).notice? style = some (defectText style d, true) ∧
          (Call.block (some f)).ending = .error f
      | _ => ((Call.block (some f)).notice? style).isSome ∧
          (Call.block (some f)).ending = .ok ()) ∧
    (∀ (e : Effect Reporter Unit) (before : Reporter), (guarded e).run before =
      let q := e.run before
      let b := (Call.block q.fault?).effect.run q.state
      ⟨q.printed ++ b.printed, b.state, b.outcome⟩) ∧
    ∀ template exprs, ((Call.warn template exprs).effect.run r).state = r := by
  intro r
  have hstyle : r.style = style := style_after _ calls
  have hkeys : r.traceback.keys = _ := keys_after style fatal calls
  refine ⟨fatal_after _ calls, hkeys, fun more => ?_, get?_after_iff style fatal calls,
    fun c message internal hnotice => ?_, fun f => ?_, fun e before => run_guarded before e,
    state_warn r⟩
  · rw [hkeys, keys_after, List.filterMap_append, List.eraseDups_append]
    exact List.prefix_append _ _
  · rw [← hstyle] at hnotice
    rw [run_of_notice r hnotice]
    refine ⟨⟨_, prints_after style fatal calls message internal⟩, fun hfatal => ?_,
      fun hfatal => ?_⟩
    · simp [hfatal]
    · simp only [hfatal, Bool.false_eq_true, if_false]
      exact ⟨Ordered.keys_map_const _ _, clear_of_mem_cleared, trivial⟩
  · cases f with
    | exit code => rfl
    | beyond => trivial
    | _ => exact ⟨rfl, rfl⟩

namespace Reporter

/-- Two files with a line in work, the one that is registered last coming first, and reports that
do not end the program any longer. -/
def twoFiles : List Call :=
  [.registerFile "main", .registerLine "<in>" (some "f(0)") (some 7),
    .registerLine "main" (some "let x = 1") (some 1), .removeLine "other", .setFatal false]

end Reporter

open Reporter in
theorem marks_follow_calls_twoFiles :
    let r := (start .plain true).after twoFiles
    let c := Call.block (some (.defect (.foreign "OSError" "gone")))
    (c.notice? .plain = some ("unknown error: 'OSError: gone'", true) ∧ r.fatal = false) ∧
      r.traceback.keys = ["main", "<in>", "other"] ∧
      r.traceback.get? "main" = some ⟨some "let x = 1", some 1⟩ ∧
      (∃ shown, Prints .plain true twoFiles r.traceback.keys "unknown error: 'OSError: gone'" true
        shown (c.effect.run r).printed) ∧
      (∀ e ∈ (c.effect.run r).state.traceback, e.2 = .clear) ∧
      (c.effect.run r).outcome = .error (.defect (.foreign "OSError" "gone")) := by
  intro r c
  have hnotice : c.notice? .plain = some ("unknown error: 'OSError: gone'", true) := by decide
  obtain ⟨hflag, hkeys, -, hentry, hreport, -⟩ := marks_follow_calls .plain true twoFiles
  have hfatal : r.fatal = false := hflag
  obtain ⟨hprints, -, hclear⟩ := hreport c _ _ hnotice
  obtain ⟨-, hmarks, houtcome⟩ := hclear hfatal
  have hstands : Stands .plain true twoFiles "main" ⟨some "let x = 1", some 1⟩ := by
    have hquiet : ∀ d ∈ twoFiles.drop 3, d.notice? .plain = none := by decide
    refine ⟨twoFiles.take 2, _, _, twoFiles.drop 3, rfl, rfl, by decide, ?_⟩
    intro before d behind heq hd
    rw [hquiet d (heq ▸ by simp)] at hd
    cases hd
  exact ⟨⟨hnotice, hfatal⟩, hkeys, (hentry _ _).mpr (.inl hstands), hprints, hmarks, houtcome⟩

end TreeWalk
