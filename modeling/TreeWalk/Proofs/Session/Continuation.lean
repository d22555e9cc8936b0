import TreeWalk.Proofs.Brackets
import TreeWalk.Proofs.Session.Commands
import TreeWalk.Shell

namespace TreeWalk

/-- Feeds lines one at a time, `number` of them having gone before. Gives the texts that are
submitted, each with the number of its last line, and the text that is pending at the end. -/
def feed (pending : String) (number : Nat) : List String → List (String × Nat) × String
  | [] => ([], pending)
  | line :: lines =>
    let joined := joinLine line pending
    if joined.2 then feed joined.1 (number + 1) lines
    else
      let rest := feed "" (number + 1) lines
      ((joined.1, number + 1) :: rest.1, rest.2)

namespace Shell

def entered (s : Shell) (lines : List String) : Shell :=
  lines.foldl (fun s line => ((enter line).run s).state) s

def submit (s : Session) (text : String × Nat) : Session :=
  ((Session.guarded (runSource text.1 text.2)).run s).state

theorem state_enter (line : String) (s : Shell) : ((enter line).run s).state =
    if (joinLine line s.pending).2 then
      ⟨s.session, nextPrompt, (joinLine line s.pending).1, s.lineNumber + 1⟩
    else
      ⟨submit s.session ((joinLine line s.pending).1, s.lineNumber + 1), firstPrompt, "",
        s.lineNumber + 1⟩ := by
  rw [enter, Effect.run_get_bind]
  cases hmore : (joinLine line s.pending).2 with
  | true => simp [hmore]
  | false =>
    simp only [hmore, Bool.false_eq_true, if_false, Effect.run_modify_bind]
    rfl

/-- The shell runs what feeding the lines submits, in order, and keeps what that leaves pending. -/
theorem entered_eq_feed (lines : List String) (s : Shell) :
    (s.entered lines).pending = (feed s.pending s.lineNumber lines).2 ∧
    (s.entered lines).session = (feed s.pending s.lineNumber lines).1.foldl submit s.session := by
  induction lines generalizing s with
  | nil => exact ⟨rfl, rfl⟩
  | cons line lines ih =>
    have hline := ih ((enter line).run s).state
    rw [state_enter] at hline
    rw [entered, List.foldl_cons, feed, state_enter]
    split at hline
    · next hmore =>
      simp only [hmore, if_true]
      exact hline
    · next hdone =>
      simp only [hdone, Bool.false_eq_true, if_false]
      exact hline

end Shell

def joined (lines : List String) : String := "\n".intercalate lines

@[simp] theorem joined_nil : joined [] = "" := rfl

theorem joined_cons_cons (line line' : String) (lines : List String) :
    joined (line :: line' :: lines) = line ++ "\n" ++ joined (line' :: lines) := by
  apply String.toList_injective
  simp [joined, String.toList_intercalate]

theorem joined_concat {lines : List String} (h : lines ≠ []) (last : String) :
    joined (lines ++ [last]) = joined lines ++ "\n" ++ last := by
  induction lines with
  | nil => exact absurd rfl h
  | cons line lines ih =>
    cases lines with
    | nil => exact joined_cons_cons line last []
    | cons line' lines =>
      have hrest := ih (List.cons_ne_nil _ _)
      simp only [List.cons_append, joined_cons_cons] at hrest ⊢
      rw [hrest]
      simp only [String.append_assoc]

def Unclosed (text : String) : Prop := closed (Token.ofText text) < opened (Token.ofText text)

theorem openBrackets_pos_iff {text : String} : 0 < openBrackets text ↔ Unclosed text := by
  rw [openBrackets_eq_balance, balance_eq_sub, Unclosed]
  omega

/-- However few of the lines are taken from the front, they leave a bracket open. -/
def Waiting (lines : List String) : Prop :=
  ∀ front, front <+: lines → front ≠ [] → Unclosed (joined front)

/-- The lines leave no bracket open, and no shorter beginning of them does. -/
structure Group (lines : List String) : Prop where
  ne_nil : lines ≠ []
  closed : ¬ Unclosed (joined lines)
  shortest : ∀ front, front <+: lines → front ≠ [] → front ≠ lines → Unclosed (joined front)

theorem waiting_nil : Waiting [] := fun _ h hne => absurd (List.prefix_nil.mp h) hne

theorem Waiting.concat {lines : List String} {last : String} (h : Waiting lines)
    (hlast : Unclosed (joined (lines ++ [last]))) : Waiting (lines ++ [last]) := by
  intro front hfront hne
  rcases List.prefix_concat_iff.mp hfront with rfl | hfront
  · exact hlast
  · exact h front hfront hne

theorem Waiting.group {lines : List String} {last : String} (h : Waiting lines)
    (hlast : ¬ Unclosed (joined (lines ++ [last]))) : Group (lines ++ [last]) where
  ne_nil := by simp
  closed := hlast
  shortest front hfront hne hshort := by
    rcases List.prefix_concat_iff.mp hfront with rfl | hfront
    · exact absurd rfl hshort
    · exact h front hfront hne

/-- Lines that wait make up a text: the empty text stands for no lines only. -/
theorem Waiting.joined_eq_empty_iff {lines : List String} (h : Waiting lines) :
    joined lines = "" ↔ lines = [] := by
  constructor
  · intro hempty
    refine Classical.byContradiction fun hne => ?_
    have hunclosed := h lines (List.prefix_refl lines) hne
    rw [hempty, ← openBrackets_pos_iff] at hunclosed
    cases hunclosed
  · rintro rfl
    rfl

theorem joinLine_joined {lines : List String} (h : Waiting lines) (line : String) :
    (joinLine line (joined lines)).1 = joined (lines ++ [line]) := by
  unfold joinLine
  by_cases hnil : lines = []
  · subst hnil
    rfl
  · have hne : (joined lines).isEmpty = false := by
      simpa [h.joined_eq_empty_iff] using hnil
    rw [joined_concat hnil]
    simp [hne]

theorem joinLine_snd_iff (line pending : String) :
    (joinLine line pending).2 = true ↔ Unclosed (joinLine line pending).1 := by
  rw [← openBrackets_pos_iff]
  exact decide_eq_true_iff

/-- Lines fed behind others that wait are cut into groups together with them, and some wait at the
end. -/
theorem feed_joined {lines : List String} (hlines : Waiting lines) (more : List String)
    (number : Nat) :
    ∃ (groups : List (List String)) (last : List String), lines ++ more = groups.flatten ++ last ∧
      (feed (joined lines) number more).1.map Prod.fst = groups.map joined ∧
      (feed (joined lines) number more).2 = joined last ∧
      (∀ group ∈ groups, Group group) ∧ Waiting last := by
  induction more generalizing lines number with
  | nil => exact ⟨[], lines, by simp, rfl, rfl, nofun, hlines⟩
  | cons line more ih =>
    have hjoined := joinLine_joined hlines line
    have hmore := joinLine_snd_iff line (joined lines)
    rw [hjoined] at hmore
    by_cases hunclosed : Unclosed (joined (lines ++ [line]))
    · -- The line waits with those before it.
      obtain ⟨groups, last, hcut, hfeed⟩ := ih (hlines.concat hunclosed) (number + 1)
      refine ⟨groups, last, by simpa using hcut, ?_⟩
      simpa only [feed, hmore.mpr hunclosed, hjoined, if_true] using hfeed
    · -- The line completes a group, and nothing is pending behind it.
      obtain ⟨groups, last, hcut, hsubmitted, hpending, hgroups, hlast⟩ :=
        ih waiting_nil (number + 1)
      have hdone : (joinLine line (joined lines)).2 = false :=
        Bool.eq_false_iff.mpr (mt hmore.mp hunclosed)
      refine ⟨(lines ++ [line]) :: groups, last, ?_, ?_, ?_,
        List.forall_mem_cons.mpr ⟨hlines.group hunclosed, hgroups⟩, hlast⟩
      · simpa using hcut
      · simpa [feed, hdone, hjoined] using hsubmitted
      · simpa [feed, hdone] using hpending

/-- The lines entered in a shell are cut into groups, in order and without loss. What is run are
the groups, each joined by line ends; each of them is as short as closing its brackets allows. What
stays pending are the lines behind the last group, and they begin with no group. -/
theorem lines_run_in_groups (reporter : Reporter) (limit : Nat) (lines : List String) :
    let fed := feed "" 0 lines
    let shell := (Shell.start reporter limit).entered lines
    shell.pending = fed.2 ∧
    shell.session = fed.1.foldl Shell.submit (Shell.start reporter limit).session ∧
    ∃ (groups : List (List String)) (last : List String), lines = groups.flatten ++ last ∧
      fed.1.map Prod.fst = groups.map joined ∧ fed.2 = joined last ∧ (fed.2 = "" ↔ last = []) ∧
      (∀ group ∈ groups, Group group) ∧ Waiting last := by
  obtain ⟨groups, last, hcut, hsubmitted, hpending, hgroups, hlast⟩ :=
    feed_joined waiting_nil lines 0
  obtain ⟨hkept, hrun⟩ := Shell.entered_eq_feed lines (Shell.start reporter limit)
  refine ⟨hkept, hrun, groups, last, hcut, hsubmitted, hpending, ?_, hgroups, hlast⟩
  rw [← hlast.joined_eq_empty_iff, ← hpending, joined_nil]

/-- The string goes on behind the end of the line, so that the parenthesis there is not counted. -/
example : feed "" 0 ["puts(\"(", ")", "\")", "[1"] = ([("puts(\"(\n)\n\")", 3)], "[1") := by
  decide

end TreeWalk
