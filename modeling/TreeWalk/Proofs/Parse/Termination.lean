import Mathlib
import TreeWalk.Proofs.Parse.Blame

/-! A function of the parser that is entered again before it has come to its end, in the next round
of a loop or at the bottom of a descent, has fewer tokens to read. -/
namespace TreeWalk

open Parse

namespace Parse.Call

variable {n : Nat} {c d : Call}

/-- A call with fewer tokens to read than another one, or with as many and of a lower rank. -/
def Below (d c : Call) : Prop := d.left < c.left ∨ d.left = c.left ∧ d.job.rank < c.job.rank

theorem below_of_weight_lt {c d : Call} (h : d.weight < c.weight) : d.Below c := by
  have hrank (job : Job) : job.rank < 6 := by cases job <;> simp [Job.rank]
  have hc := hrank c.job
  have hd := hrank d.job
  unfold weight at h
  unfold Below
  omega

/-- A call makes another one, itself or through the calls it makes. -/
inductive Leads : Nat → Call → Call → Prop where
  | call {n : Nat} {c d : Call} (h : d ∈ c.calls n) : Leads (n + 1) c d
  | through {n : Nat} {c d e : Call} (h : d ∈ c.calls n) (h' : Leads n d e) : Leads (n + 1) c e

theorem Leads.weight_lt (h : Leads n c d) : d.weight < c.weight := by
  induction h with
  | call h => exact weight_lt_of_mem_calls h
  | through h _ ih => exact Nat.lt_trans ih (weight_lt_of_mem_calls h)

end Parse.Call

theorem exists_parse {source : String} (h : ∀ t ∈ Token.ofText source, t.isOverlong = false) :
    ∃ r, parse source = .ok r := by
  have hfind : (Token.ofText source).find? Token.isOverlong = none := by
    rw [List.find?_eq_none]
    intro t ht
    simp [h t ht]
  have haudit := audit_ofText source
  rw [audit_eq_ok hfind] at haudit
  cases hparse : parse source with
  | error a =>
    rw [hparse] at haudit
    cases haudit
  | ok r => exact ⟨r, rfl⟩

/-- Every source without an overlong numeral has a tree, however faulty it is. All of its tokens
are taken up, and the steps allowed for it, linear in their number, give what any greater number of
steps gives. What a call waits for are the calls it makes. A call that is begun on the way has
fewer tokens left to read, or as many in a function of a lower rank: no round of a loop and no
descent comes back to a function without having taken up a token. -/
theorem reading_terminates (source : String)
    (h : ∀ t ∈ Token.ofText source, t.isOverlong = false) :
    (∃ trees complaints, parse source = .ok (.program trees, complaints) ∧
      ∀ steps, allowance (Token.ofText source).length ≤ steps →
        (statements steps false).run ⟨Token.ofText source, []⟩ =
          .ok (trees, ⟨[], complaints.reverse⟩)) ∧
    ∀ n c, (c.Finishes (n + 1) ↔ ∀ d ∈ Call.calls n c, d.Finishes n) ∧
      ∀ d, Call.Leads n c d → d.Below c := by
  refine ⟨?_, fun n c => ⟨c.finishes_succ_iff n, fun d hd => Call.below_of_weight_lt hd.weight_lt⟩⟩
  obtain ⟨⟨tree, complaints⟩, hparse⟩ := exists_parse h
  obtain ⟨trees, rfl, hrun⟩ := run_statements_of_parseTokens hparse (proper_tokenize _)
  refine ⟨trees, complaints, hparse, fun steps hsteps => ?_⟩
  rw [← run_statements_allowance hsteps]
  exact hrun

/-- A hash, a list and a parameter list that nothing closes, and an operator at the end of input. -/
theorem reading_terminates_unclosed :
    ∃ complaints, complaints.length = 4 ∧
      ∀ steps, 80 ≤ steps →
        (statements steps false).run ⟨Token.ofText "\x7b1: [fn(a, -", []⟩ =
          .ok ([.exprStmt ⟨.lbrace, "\x7b"⟩ .missing], ⟨[], complaints⟩) := by
  have hparse : parse "\x7b1: [fn(a, -" = .ok (.program [.exprStmt ⟨.lbrace, "\x7b"⟩ .missing],
      [.expected .ident .minus, .noOperand .eof, .expected .rbracket .eof,
        .expected .comma .eof]) := by
    cbv
  have htokens : Token.ofText "\x7b1: [fn(a, -" =
      [⟨.lbrace, "\x7b"⟩, ⟨.int, "1"⟩, ⟨.colon, ":"⟩, ⟨.lbracket, "["⟩, ⟨.fnWord, "fn"⟩,
        ⟨.lparen, "("⟩, ⟨.ident, "a"⟩, ⟨.comma, ","⟩, ⟨.minus, "-"⟩] := by
    cbv
  have hlong : ∀ t ∈ Token.ofText "\x7b1: [fn(a, -", t.isOverlong = false := by
    rw [htokens]
    decide
  obtain ⟨⟨trees, complaints, htree, hrun⟩, -⟩ := reading_terminates _ hlong
  rw [hparse] at htree
  cases htree
  rw [htokens] at hrun ⊢
  exact ⟨_, rfl, hrun⟩

end TreeWalk
