import TreeWalk.Token.Lexeme

/-! A scanner hands out one token at a time. Reading on past the end is allowed and still counts. -/
namespace TreeWalk

structure Scanner where
  position : Nat
  /-- What is left to read, the character at `position` first. -/
  rest : List Char
  deriving DecidableEq, Repr

namespace Scanner

def ofText (source : String) : Scanner := ⟨0, source.toList⟩

def char? (s : Scanner) : Option Char := s.rest.head?

def peek? (s : Scanner) : Option Char := s.rest.tail.head?

def readPosition (s : Scanner) : Nat := s.position + 1

def advance (n : Nat) (s : Scanner) : Scanner := ⟨s.position + n, s.rest.drop n⟩

def read (s : Scanner) : Scanner := s.advance 1

def skipGaps (s : Scanner) : Scanner := s.advance (s.rest.takeWhile isGap).length

theorem rest_skipGaps (s : Scanner) : s.skipGaps.rest = s.rest.dropWhile isGap := by
  obtain ⟨_, rest⟩ := s
  simp only [skipGaps, advance]
  induction rest with
  | nil => rfl
  | cons c cs ih => by_cases h : isGap c <;> simp_all

/-- The next token and the scanner behind it, unless only gaps are left. -/
def token? (s : Scanner) : Option (Token × Scanner) :=
  match s.skipGaps.rest with
  | [] => none
  | c :: cs => some ((Lexeme.start c cs).token, s.skipGaps.advance ((Lexeme.start c cs).more + 1))

theorem length_rest_lt_of_token? {s s' : Scanner} {t : Token} (h : s.token? = some (t, s')) :
    s'.rest.length < s.rest.length := by
  have hle := length_dropWhile_le isGap s.rest
  rw [← rest_skipGaps] at hle
  unfold token? at h
  split at h
  · cases h
  · next heq =>
    simp only [Option.some.injEq, Prod.mk.injEq] at h
    simp only [← h.2, advance, heq, List.length_drop, List.length_cons] at hle ⊢
    omega

def next (s : Scanner) : Token × Scanner := s.token?.getD (.eof, s.skipGaps)

def drain (s : Scanner) : List Token × Scanner :=
  match _h : s.token? with
  | none => ([.eof], s.skipGaps)
  | some (t, s') =>
    let r := s'.drain
    (t :: r.1, r.2)
termination_by s.rest.length
decreasing_by exact length_rest_lt_of_token? _h

/-- Draining gives the tokens of what is left, and the end of input behind them. -/
theorem drain_fst (s : Scanner) : s.drain.1 = tokenize s.rest ++ [.eof] := by
  fun_induction drain s with
  | case1 s h =>
    have hr : s.rest.dropWhile isGap = [] := by
      rw [← rest_skipGaps]
      unfold token? at h
      split at h
      · assumption
      · cases h
    rw [tokenize]
    split
    · rfl
    · simp_all
  | case2 s t s' h r ih =>
    unfold token? at h
    split at h
    · cases h
    · next c cs hr =>
      rw [rest_skipGaps] at hr
      simp only [Option.some.injEq, Prod.mk.injEq] at h
      obtain ⟨rfl, rfl⟩ := h
      have hd : (s.skipGaps.advance ((Lexeme.start c cs).more + 1)).rest
          = cs.drop (Lexeme.start c cs).more := by
        simp [advance, rest_skipGaps, hr]
      rw [tokenize]
      split
      · simp_all
      · next c' cs' hr' =>
        rw [hr] at hr'
        obtain ⟨rfl, rfl⟩ := List.cons.inj hr'
        simp [r, ih, hd]

end Scanner

end TreeWalk
