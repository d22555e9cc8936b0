import Mathlib
import TreeWalk.Proofs.Eval.Frame
import TreeWalk.Proofs.Parse.Canonical
import TreeWalk.Proofs.Session.Commands

/-! A `let` in a branch of a condition is not looked at when a source is added, though a branch is
evaluated in the same scope as what stands around it. -/
namespace TreeWalk

namespace Node

/-- A `let` in a branch of a condition in the node, outside the bodies of functions, binds the
name. -/
def LetsInBranch (n : Node) (name : String) : Prop :=
  ∃ t c a b branch, n.Holds (.ifExpr t c a b) ∧ (branch = a ∨ branch = b) ∧ branch.Lets name

theorem LetsInBranch.of_child {n c : Node} (h : c ∈ n.children) {name : String}
    (hc : c.LetsInBranch name) : n.LetsInBranch name := by
  obtain ⟨t, cond, a, b, branch, hfound, hbranch, hlets⟩ := hc
  exact ⟨t, cond, a, b, branch, .child h hfound, hbranch, hlets⟩

end Node

theorem Canonical.statements {tree : Node} (h : Canonical .program tree) :
    ∀ s ∈ Session.statementsOf tree, Canonical .statement s := by
  cases h with
  | program statements => exact statements

namespace Session

def Rooted (s : Session) : Prop := s.root < s.store.scopes.size

theorem Rooted.runQueue {s : Session} (h : s.Rooted) (queue : List (Int × Node)) :
    ((runQueue queue).run s).state.Rooted := by
  induction queue generalizing s with
  | nil => exact h
  | cons entry queue ih =>
    obtain ⟨number, program⟩ := entry
    have hsize : s.store.scopes.size ≤
        ((Effect.ofAction s.reporter.style (evaluateWithin s.limit program s.root)).run
          s.store).state.scopes.size :=
      Steps.size_le (steps_evaluateWithin (fun _ => true) s.limit program s.root
        (s := ⟨s.store, []⟩) (Nat.le_refl _)).1
    have hafter := Nat.lt_of_lt_of_le h hsize
    rw [run_runQueue_cons]
    generalize (Effect.ofAction s.reporter.style
      (evaluateWithin s.limit program s.root)).run s.store = r at hafter
    obtain ⟨text, store, f | v⟩ := r
    · exact hafter
    · exact ih hafter

theorem Rooted.command {s : Session} (h : s.Rooted) (c : Command) :
    (c.effect.run s).state.Rooted := by
  cases c with
  | add source number =>
    rcases hread : readSource source with f | program
    · rw [Command.run_add_of_error hread]
      exact h
    · rw [Command.run_add_of_ok hread]
      exact h
  | run =>
    rw [Command.run_run]
    exact h.runQueue s.queue
  | pop =>
    rcases List.eq_nil_or_concat s.results with hnil | ⟨vs, v, hvs⟩
    · rw [Command.run_pop_of_nil hnil]
      exact h
    · rw [List.concat_eq_append] at hvs
      rw [Command.run_pop_of_concat hvs]
      exact h

theorem Rooted.step {s : Session} (h : s.Rooted) (t : Step) : (t.effect.run s).state.Rooted := by
  have hcommand := h.command t.command
  rcases hrun : t.command.effect.run s with ⟨text, s', f | a⟩
  · rw [hrun] at hcommand
    rw [Step.run_effect_of_error hrun]
    split <;> exact hcommand
  · rw [hrun] at hcommand
    rw [Step.run_effect_of_ok hrun]
    exact hcommand

end Session

end TreeWalk
