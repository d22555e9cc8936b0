import TreeWalk.Proofs.Segmentation
import TreeWalk.Session.Brackets
import TreeWalk.Token.Scanner

namespace TreeWalk

/-- What a token of the kind adds to the number of open brackets. -/
def Kind.weight : Kind → Int
  | lparen | lbracket | lbrace => 1
  | rparen | rbracket | rbrace => -1
  | _ => 0

theorem Kind.weight_of_mem_keywords {k : Kind} (h : k ∈ keywords) : k.weight = 0 := by
  simp only [keywords, List.mem_cons, List.not_mem_nil, or_false] at h
  rcases h with rfl | rfl | rfl | rfl | rfl | rfl | rfl <;> rfl

def balance : List Token → Int
  | [] => 0
  | t :: ts => t.kind.weight + balance ts

@[simp] theorem balance_nil : balance [] = 0 := rfl

@[simp] theorem balance_cons (t : Token) (ts : List Token) :
    balance (t :: ts) = t.kind.weight + balance ts := rfl

def opened (ts : List Token) : Nat := ts.countP (·.kind ∈ [.lparen, .lbracket, .lbrace])

def closed (ts : List Token) : Nat := ts.countP (·.kind ∈ [.rparen, .rbracket, .rbrace])

theorem balance_eq_sub (ts : List Token) : balance ts = opened ts - closed ts := by
  induction ts with
  | nil => rfl
  | cons t ts ih =>
    have hopened : opened (t :: ts) =
        opened ts + if t.kind ∈ [Kind.lparen, .lbracket, .lbrace] then 1 else 0 := by
      simp [opened, List.countP_cons]
    have hclosed : closed (t :: ts) =
        closed ts + if t.kind ∈ [Kind.rparen, .rbracket, .rbrace] then 1 else 0 := by
      simp [closed, List.countP_cons]
    have hweight : t.kind.weight =
        (if t.kind ∈ [Kind.lparen, .lbracket, .lbrace] then 1 else 0) -
          if t.kind ∈ [Kind.rparen, .rbracket, .rbrace] then 1 else 0 := by
      cases t.kind <;> rfl
    rw [balance_cons, hopened, hclosed, hweight, ih]
    split <;> split <;> push_cast <;> omega

def countedChars : List Char := ['"', '(', '[', '{', ')', ']', '}']

/-- A class without any of these characters. -/
theorem not_mem_countedChars {p : Char → Bool} (hp : countedChars.all (!p ·)) {c : Char}
    (h : p c) : c ∉ countedChars := by
  intro hc
  have hnot := List.all_eq_true.mp hp c hc
  rw [h] at hnot
  cases hnot

theorem balanceFrom_run {cs : List Char} (h : ∀ c ∈ cs, c ∉ countedChars) (rest : List Char) :
    balanceFrom false (cs ++ rest) = balanceFrom false rest := by
  induction cs with
  | nil => rfl
  | cons c cs ih =>
    obtain ⟨hc, hcs⟩ := List.forall_mem_cons.mp h
    simp only [countedChars, List.mem_cons, List.not_mem_nil, or_false, not_or] at hc
    simp [balanceFrom, isOpener, isCloser, hc, ih hcs]

theorem balanceFrom_body {body : List Char} (h : ∀ c ∈ body, isQuote c = false)
    (rest : List Char) : balanceFrom true (body ++ rest) = balanceFrom true rest := by
  induction body with
  | nil => rfl
  | cons c body ih =>
    obtain ⟨hc, hbody⟩ := List.forall_mem_cons.mp h
    have hne : c ≠ '"' := by simpa [isQuote] using hc
    simp [balanceFrom, hne, ih hbody]

theorem balanceFrom_sign {k : Kind} (h : k ∈ Kind.signs) (rest : List Char) :
    balanceFrom false (k.spelling.toList ++ rest) = k.weight + balanceFrom false rest := by
  simp only [Kind.signs, List.mem_cons, List.not_mem_nil, or_false] at h
  rcases h with rfl | rfl | rfl | rfl | rfl | rfl | rfl | rfl | rfl | rfl | rfl | rfl | rfl | rfl |
    rfl | rfl | rfl | rfl | rfl
  all_goals
    simp [Kind.spelling, Kind.weight, balanceFrom, isOpener, isCloser]
  all_goals omega

/-- A token that is written adds its weight. -/
theorem Writes.balanceFrom {text rest : List Char} {t : Token} (h : Writes text rest t) :
    balanceFrom false (text ++ rest) = t.kind.weight + balanceFrom false rest := by
  cases h with
  | @keyword k _ hk ends =>
    have hletters := (Kind.letters_of_mem_keywords hk).2
    rw [balanceFrom_run (fun c hc => not_mem_countedChars (by decide) (hletters c hc)),
      Kind.weight_of_mem_keywords hk, Int.zero_add]
  | ident ne letters free ends =>
    rw [balanceFrom_run (fun c hc => not_mem_countedChars (by decide) (letters c hc))]
    exact (Int.zero_add _).symm
  | numeral ne hdigits ends =>
    rw [balanceFrom_run (fun c hc => not_mem_countedChars (by decide) (hdigits c hc))]
    exact (Int.zero_add _).symm
  | @quoted body _ noQuote =>
    have hbody := balanceFrom_body noQuote ('"' :: rest)
    simpa [TreeWalk.balanceFrom, Kind.weight] using hbody
  | @unclosed body noQuote =>
    have hbody := balanceFrom_body noQuote []
    simpa [TreeWalk.balanceFrom, Kind.weight] using hbody
  | sign hk ends => exact balanceFrom_sign hk rest
  | @other c _ gap letter digit quote free =>
    have hc : c ∉ countedChars := by
      simp only [countedChars, List.mem_cons, List.not_mem_nil, or_false]
      rintro (rfl | rfl | rfl | rfl | rfl | rfl | rfl)
      · cases quote
      · exact free .lparen (by decide) rfl
      · exact free .lbracket (by decide) rfl
      · exact free .lbrace (by decide) rfl
      · exact free .rparen (by decide) rfl
      · exact free .rbracket (by decide) rfl
      · exact free .rbrace (by decide) rfl
    rw [balanceFrom_run (List.forall_mem_singleton.mpr hc)]
    exact (Int.zero_add _).symm

theorem Segmentation.Lawful.balanceFrom {g : Segmentation} (h : g.Lawful) :
    balanceFrom false g.text = balance g.tokens := by
  have hgaps {gap : List Char} (hgap : ∀ c ∈ gap, isGap c) (rest : List Char) :
      TreeWalk.balanceFrom false (gap ++ rest) = TreeWalk.balanceFrom false rest :=
    balanceFrom_run (fun c hc => not_mem_countedChars (by decide) (hgap c hc)) rest
  obtain ⟨ss, last⟩ := g
  induction ss with
  | nil =>
    have hlast := hgaps h []
    rwa [List.append_nil] at hlast
  | cons s ss ih =>
    obtain ⟨hgap, hwrites, hmore⟩ := h
    have hrest := ih hmore
    rw [text] at hrest
    rw [text, textBefore, hgaps hgap, hwrites.balanceFrom, hrest]
    exact (balance_cons s.token _).symm

theorem openBrackets_eq_balance (text : String) :
    openBrackets text = balance (Token.ofText text) := by
  obtain ⟨g, htext, hlawful⟩ := Segmentation.exists_lawful text.toList
  rw [openBrackets, Token.ofText, ← htext, hlawful.balanceFrom, hlawful.tokenize_text]

/-- Counting the characters of a text gives what counting its tokens gives, wherever its strings
begin and end and whatever it is made of. -/
theorem openBrackets_eq_drained (text : String) :
    openBrackets text =
      opened (Scanner.ofText text).drain.1 - closed (Scanner.ofText text).drain.1 := by
  have hdrained : (Scanner.ofText text).drain.1 = Token.ofText text ++ [.eof] :=
    Scanner.drain_fst _
  have hopened : opened (Token.ofText text ++ [.eof]) = opened (Token.ofText text) := by
    simp [opened, Token.eof]
  have hclosed : closed (Token.ofText text ++ [.eof]) = closed (Token.ofText text) := by
    simp [closed, Token.eof]
  rw [hdrained, hopened, hclosed, openBrackets_eq_balance, balance_eq_sub]

end TreeWalk
