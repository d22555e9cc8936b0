import TreeWalk.Token.Lexeme

namespace TreeWalk

def Proper (ts : List Token) : Prop := ∀ t ∈ ts, t.kind ≠ .eof

theorem Kind.ofWord_mem (word : String) : ofWord word ∈ ident :: keywords := by
  unfold ofWord
  cases hf : keywords.find? (·.spelling == word) with
  | none => exact List.mem_cons_self
  | some k => exact List.mem_cons_of_mem _ (List.mem_of_find?_eq_some hf)

theorem Kind.ofWord_ne {k : Kind} (hk : k ∉ ident :: keywords) (word : String) :
    ofWord word ≠ k := by
  rintro rfl
  exact hk (ofWord_mem word)

theorem Kind.ofChar?_getD_ne_eof (c : Char) : (ofChar? c).getD illegal ≠ eof := by
  unfold ofChar?
  split <;> decide

theorem Lexeme.kind_start_ne_eof (c : Char) (rest : List Char) :
    (start c rest).token.kind ≠ .eof := by
  unfold start
  split
  · exact Kind.ofWord_ne (by decide) _
  · split
    · intro h
      cases h
    · split
      · intro h
        cases h
      · unfold symbol
        split
        · decide
        · split
          · decide
          · exact Kind.ofChar?_getD_ne_eof c

theorem proper_tokenize (source : List Char) : Proper (tokenize source) := by
  fun_induction tokenize source with
  | case1 =>
    intro t ht
    cases ht
  | case2 source c rest h ih =>
    intro t ht
    rcases List.mem_cons.mp ht with rfl | ht
    · exact Lexeme.kind_start_ne_eof c rest
    · exact ih t ht

theorem tokenize_nil : tokenize [] = [] := by
  rw [tokenize]
  rfl

theorem tokenize_gap {c : Char} (h : isGap c) (rest : List Char) :
    tokenize (c :: rest) = tokenize rest := by
  rw [tokenize.eq_1 (c :: rest), tokenize.eq_1 rest, List.dropWhile_cons_of_pos h]

theorem tokenize_cons {c : Char} (h : isGap c = false) (rest : List Char) :
    tokenize (c :: rest) =
      (Lexeme.start c rest).token :: tokenize (rest.drop (Lexeme.start c rest).more) := by
  have hdrop : (c :: rest).dropWhile isGap = c :: rest := by simp [h]
  rw [tokenize]
  split
  · next heq =>
    rw [hdrop] at heq
    cases heq
  · next heq =>
    rw [hdrop] at heq
    cases heq
    rfl

theorem eq_of_isGap {c : Char} (h : isGap c) : c = ' ' ∨ c = '\t' ∨ c = '\n' ∨ c = '\r' := by
  simpa [isGap, or_assoc] using h

/-- A gap is no character of a word or a numeral and goes on with no sign. -/
theorem isGap_disjoint {c : Char} (h : isGap c) :
    isLetter c = false ∧ isDigit c = false ∧ isQuote c = false ∧ c ≠ '=' := by
  rcases eq_of_isGap h with rfl | rfl | rfl | rfl <;> decide

theorem isGap_of_isLetter {c : Char} (h : isLetter c) : isGap c = false := by
  cases hgap : isGap c with
  | false => rfl
  | true =>
    rw [(isGap_disjoint hgap).1] at h
    cases h

theorem isGap_of_isDigit {c : Char} (h : isDigit c) : isGap c = false := by
  cases hgap : isGap c with
  | false => rfl
  | true =>
    rw [(isGap_disjoint hgap).2.1] at h
    cases h

theorem isLetter_of_isDigit {c : Char} (h : isDigit c) : isLetter c = false := by
  have hle : c.val.toNat ≤ 57 := by
    simp only [isDigit, Char.isDigit, Bool.and_eq_true, decide_eq_true_eq] at h
    exact h.2
  have hne : c ≠ '_' := by
    rintro rfl
    exact absurd hle (by decide)
  have hupper : c.isUpper = false := by
    refine decide_eq_false fun hc => ?_
    exact absurd (Nat.le_trans hc.1 hle) (by decide)
  have hlower : c.isLower = false := by
    refine Bool.and_eq_false_iff.mpr (.inl (decide_eq_false fun hc => ?_))
    exact absurd (Nat.le_trans hc hle) (by decide)
  have halpha : c.isAlpha = false := Bool.or_eq_false_iff.mpr ⟨hupper, hlower⟩
  simp [isLetter, halpha, hne]

/-- Nothing that could go on with the token before it: the end of the text, or a character of no
word, no numeral and no sign of two characters. -/
def Apart (rest : List Char) : Prop :=
  ∀ c ∈ rest.head?, isLetter c = false ∧ isDigit c = false ∧ c ≠ '='

theorem apart_nil : Apart [] := by
  intro c hc
  cases hc

theorem apart_cons {c : Char} (h : isLetter c = false ∧ isDigit c = false ∧ c ≠ '=')
    (rest : List Char) : Apart (c :: rest) := by
  intro d hd
  cases hd
  exact h

/-- A run of characters of a class ends before a character that is not of the class. -/
theorem takeWhile_append_of_head {p : Char → Bool} {cs rest : List Char} (hcs : ∀ c ∈ cs, p c)
    (hrest : ∀ c ∈ rest.head?, p c = false) : (cs ++ rest).takeWhile p = cs := by
  rw [List.takeWhile_append_of_pos hcs]
  cases rest with
  | nil => simp
  | cons c rest => simp [hrest c rfl]

namespace Token

def spelled (t : Token) : String :=
  match t.kind with
  | .string => "\"" ++ t.literal ++ "\""
  | _ => t.literal

/-- The tokens that a source can have. -/
inductive Lexical : Token → Prop
  | word {w : String} (ne : w ≠ "") (letters : ∀ c ∈ w.toList, isLetter c) :
      Lexical ⟨Kind.ofWord w, w⟩
  | numeral {w : String} (ne : w ≠ "") (digits : ∀ c ∈ w.toList, isDigit c) : Lexical ⟨.int, w⟩
  | quoted {w : String} (noQuote : ∀ c ∈ w.toList, isQuote c = false) : Lexical ⟨.string, w⟩
  | eq : Lexical ⟨.eq, "=="⟩
  | notEq : Lexical ⟨.notEq, "!="⟩
  /-- A sign of one character, or a character without a meaning. -/
  | sign {c : Char} (gap : isGap c = false) (letter : isLetter c = false)
      (digit : isDigit c = false) (quote : isQuote c = false) :
      Lexical ⟨(Kind.ofChar? c).getD .illegal, c.toString⟩

end Token

namespace Lexeme

theorem start_word {c : Char} {cs rest : List Char} (hc : isLetter c) (hcs : ∀ d ∈ cs, isLetter d)
    (hrest : ∀ d ∈ rest.head?, isLetter d = false) :
    start c (cs ++ rest) =
      ⟨⟨Kind.ofWord (String.ofList (c :: cs)), String.ofList (c :: cs)⟩, cs.length⟩ := by
  have htail := takeWhile_append_of_head hcs hrest
  simp only [start, hc, if_true, run, htail]

theorem start_numeral {c : Char} {cs rest : List Char} (hc : isDigit c) (hcs : ∀ d ∈ cs, isDigit d)
    (hrest : ∀ d ∈ rest.head?, isDigit d = false) :
    start c (cs ++ rest) = ⟨⟨.int, String.ofList (c :: cs)⟩, cs.length⟩ := by
  have hletter := isLetter_of_isDigit hc
  have htail := takeWhile_append_of_head hcs hrest
  simp only [start, hletter, hc, if_true, run, htail, Bool.false_eq_true, if_false]

theorem start_quote {cs : List Char} (hcs : ∀ d ∈ cs, isQuote d = false) (rest : List Char) :
    start '"' (cs ++ '"' :: rest) = ⟨⟨.string, String.ofList cs⟩, cs.length + 1⟩ := by
  have hbody : (cs ++ '"' :: rest).takeWhile (!isQuote ·) = cs := by
    rw [List.takeWhile_append_of_pos (by simpa using hcs)]
    simp [isQuote]
  have hstart : start '"' (cs ++ '"' :: rest) = quoted (cs ++ '"' :: rest) := rfl
  rw [hstart, quoted, hbody]

theorem start_sign {c : Char} {rest : List Char} (hletter : isLetter c = false)
    (hdigit : isDigit c = false) (hquote : isQuote c = false)
    (hrest : c = '=' ∨ c = '!' → rest.head? ≠ some '=') :
    start c rest = ⟨⟨(Kind.ofChar? c).getD .illegal, c.toString⟩, 0⟩ := by
  have heq : (c == '=' && rest.head? == some '=') = false := by
    simpa using fun hc => hrest (.inl hc)
  have hnotEq : (c == '!' && rest.head? == some '=') = false := by
    simpa using fun hc => hrest (.inr hc)
  simp only [start, symbol, hletter, hdigit, hquote, heq, hnotEq, Bool.false_eq_true, if_false]

end Lexeme

namespace Token

theorem spelled_of_ne {t : Token} (h : t.kind ≠ .string) : t.spelled = t.literal := by
  unfold spelled
  split
  · contradiction
  · rfl

theorem exists_cons_of_ne_empty {w : String} (h : w ≠ "") : ∃ c cs, w.toList = c :: cs := by
  cases hw : w.toList with
  | nil => exact absurd (String.toList_eq_nil_iff.mp hw) h
  | cons c cs => exact ⟨c, cs, rfl⟩

/-- A spelled token is cut off whole where the text behind it stands apart. -/
theorem tokenize_spelled {t : Token} (h : t.Lexical) {rest : List Char} (hrest : Apart rest) :
    tokenize (t.spelled.toList ++ rest) = t :: tokenize rest := by
  cases h with
  | @word w ne letters =>
    rw [spelled_of_ne (Kind.ofWord_ne (by decide) w)]
    obtain ⟨c, cs, hw⟩ := exists_cons_of_ne_empty ne
    obtain ⟨hc, hcs⟩ := List.forall_mem_cons.mp (hw ▸ letters)
    rw [hw, List.cons_append, tokenize_cons (isGap_of_isLetter hc),
      Lexeme.start_word hc hcs fun d hd => (hrest d hd).1]
    simp [← hw]
  | @numeral w ne digits =>
    rw [spelled_of_ne (by simp)]
    obtain ⟨c, cs, hw⟩ := exists_cons_of_ne_empty ne
    obtain ⟨hc, hcs⟩ := List.forall_mem_cons.mp (hw ▸ digits)
    rw [hw, List.cons_append, tokenize_cons (isGap_of_isDigit hc),
      Lexeme.start_numeral hc hcs fun d hd => (hrest d hd).2.1]
    simp [← hw]
  | @quoted w noQuote =>
    have hspelled : spelled ⟨.string, w⟩ = "\"" ++ w ++ "\"" := rfl
    have hlist : ("\"" ++ w ++ "\"").toList ++ rest = '"' :: (w.toList ++ '"' :: rest) := by simp
    rw [hspelled, hlist, tokenize_cons (by decide), Lexeme.start_quote noQuote]
    simp [← List.drop_drop]
  | eq =>
    have hlist : (spelled ⟨.eq, "=="⟩).toList ++ rest = '=' :: '=' :: rest := rfl
    rw [hlist, tokenize_cons (by decide)]
    rfl
  | notEq =>
    have hlist : (spelled ⟨.notEq, "!="⟩).toList ++ rest = '!' :: '=' :: rest := rfl
    rw [hlist, tokenize_cons (by decide)]
    rfl
  | @sign c gap letter digit quote =>
    have hkind : (Kind.ofChar? c).getD .illegal ≠ .string := by
      unfold Kind.ofChar?
      split <;> decide
    have hlist : c.toString.toList ++ rest = c :: rest := by simp
    have hnext : rest.head? ≠ some '=' := fun heq => (hrest '=' heq).2.2 rfl
    rw [spelled_of_ne hkind, hlist, tokenize_cons gap,
      Lexeme.start_sign letter digit quote fun _ => hnext]
    simp

def spaced (ts : List Token) : String := " ".intercalate (ts.map spelled)

theorem spaced_cons_cons (t u : Token) (ts : List Token) :
    (spaced (t :: u :: ts)).toList = t.spelled.toList ++ ' ' :: (spaced (u :: ts)).toList := by
  simp [spaced, String.toList_intercalate]

theorem ofText_spaced {ts : List Token} (h : ∀ t ∈ ts, t.Lexical) : ofText (spaced ts) = ts := by
  unfold ofText
  induction ts with
  | nil => exact tokenize_nil
  | cons t ts ih =>
    obtain ⟨ht, hts⟩ := List.forall_mem_cons.mp h
    cases ts with
    | nil =>
      have hlist : (spaced [t]).toList = t.spelled.toList ++ [] := by simp [spaced]
      rw [hlist, tokenize_spelled ht apart_nil, tokenize_nil]
    | cons u ts =>
      rw [spaced_cons_cons, tokenize_spelled ht (apart_cons (by decide) _),
        tokenize_gap (by decide), ih hts]

end Token

namespace Kind

def token (k : Kind) : Token := ⟨k, k.spelling⟩

def isFixed : Kind → Bool
  | illegal | eof | ident | int | string => false
  | _ => true

theorem ofWord_of_mem_keywords {k : Kind} (h : k ∈ keywords) : ofWord k.spelling = k := by
  revert k
  decide

theorem letters_of_mem_keywords {k : Kind} (h : k ∈ keywords) :
    k.spelling ≠ "" ∧ ∀ c ∈ k.spelling.toList, isLetter c := by
  simp only [keywords, List.mem_cons, List.not_mem_nil, or_false] at h
  rcases h with rfl | rfl | rfl | rfl | rfl | rfl | rfl <;> simp [spelling, isLetter]

theorem lexical_keyword {k : Kind} (h : k ∈ keywords) : k.token.Lexical := by
  obtain ⟨hne, hletters⟩ := letters_of_mem_keywords h
  have hlexical := Token.Lexical.word hne hletters
  rwa [ofWord_of_mem_keywords h] at hlexical

theorem ofChar?_eq_some {c : Char} {k : Kind} (h : ofChar? c = some k) :
    isGap c = false ∧ isLetter c = false ∧ isDigit c = false ∧ isQuote c = false ∧
      c.toString = k.spelling := by
  unfold ofChar? at h
  split at h <;> cases h <;> decide

/-- A sign that begins no longer one is cut off before anything. -/
theorem tokenize_sign {c : Char} {k : Kind} (h : ofChar? c = some k) (hc : c ≠ '=' ∧ c ≠ '!')
    (rest : List Char) : tokenize (c :: rest) = k.token :: tokenize rest := by
  obtain ⟨hgap, hletter, hdigit, hquote, hspelling⟩ := ofChar?_eq_some h
  have hstart : Lexeme.start c rest = ⟨k.token, 0⟩ := by
    rw [Lexeme.start_sign hletter hdigit hquote fun hsign => absurd hsign (not_or.mpr hc), h,
      hspelling]
    rfl
  rw [tokenize_cons hgap, hstart, List.drop_zero]

theorem lexical_sign {k : Kind} (h : ofChar? (k.spelling.toList.headD ' ') = some k) :
    k.token.Lexical := by
  obtain ⟨hgap, hletter, hdigit, hquote, hspelling⟩ := ofChar?_eq_some h
  have hlexical := Token.Lexical.sign hgap hletter hdigit hquote
  rwa [h, hspelling] at hlexical

theorem lexical_token {k : Kind} (h : k.isFixed) : k.token.Lexical := by
  cases k with
  | illegal | eof | ident | int | string => cases h
  | fnWord | letWord | trueWord | falseWord | ifWord | elseWord | returnWord =>
    exact lexical_keyword (by decide)
  | eq => exact .eq
  | notEq => exact .notEq
  | _ => exact lexical_sign (by decide)

end Kind

end TreeWalk
