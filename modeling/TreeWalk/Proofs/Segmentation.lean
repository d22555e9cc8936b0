import Mathlib.Logic.ExistsUnique
import TreeWalk.Proofs.Lexing
import TreeWalk.Token.Scanner

namespace TreeWalk

def Kind.signs : List Kind :=
  [assign, plus, minus, bang, asterisk, slash, lt, gt, eq, notEq, comma, semicolon, colon, lparen,
    rparen, lbrace, rbrace, lbracket, rbracket]

/-- `Writes text rest t` says that `text` is all that is written of the token `t` where `rest`
follows. -/
inductive Writes : List Char → List Char → Token → Prop
  | keyword {k : Kind} {rest : List Char} (hk : k ∈ Kind.keywords)
      (ends : ∀ c ∈ rest.head?, isLetter c = false) :
      Writes k.spelling.toList rest ⟨k, k.spelling⟩
  | ident {word rest : List Char} (ne : word ≠ []) (letters : ∀ c ∈ word, isLetter c)
      (free : ∀ k ∈ Kind.keywords, k.spelling ≠ String.ofList word)
      (ends : ∀ c ∈ rest.head?, isLetter c = false) :
      Writes word rest ⟨.ident, String.ofList word⟩
  | numeral {digits rest : List Char} (ne : digits ≠ []) (hdigits : ∀ c ∈ digits, isDigit c)
      (ends : ∀ c ∈ rest.head?, isDigit c = false) :
      Writes digits rest ⟨.int, String.ofList digits⟩
  | quoted {body rest : List Char} (noQuote : ∀ c ∈ body, isQuote c = false) :
      Writes ('"' :: (body ++ ['"'])) rest ⟨.string, String.ofList body⟩
  /-- Only at the end of the source may the closing quote be left out. -/
  | unclosed {body : List Char} (noQuote : ∀ c ∈ body, isQuote c = false) :
      Writes ('"' :: body) [] ⟨.string, String.ofList body⟩
  | sign {k : Kind} {rest : List Char} (hk : k ∈ Kind.signs)
      (ends : k = .assign ∨ k = .bang → rest.head? ≠ some '=') :
      Writes k.spelling.toList rest ⟨k, k.spelling⟩
  | other {c : Char} {rest : List Char} (gap : isGap c = false) (letter : isLetter c = false)
      (digit : isDigit c = false) (quote : isQuote c = false)
      (free : ∀ k ∈ Kind.signs, k.spelling ≠ c.toString) : Writes [c] rest ⟨.illegal, c.toString⟩

structure Segment where
  gap : List Char
  text : List Char
  token : Token
  deriving DecidableEq, Repr

structure Segmentation where
  segments : List Segment
  last : List Char
  deriving DecidableEq, Repr

namespace Segmentation

def textBefore (last : List Char) : List Segment → List Char
  | [] => last
  | s :: ss => s.gap ++ (s.text ++ textBefore last ss)

/-- Gaps are gaps, and each text writes its token before all that follows it. -/
def LawfulBefore (last : List Char) : List Segment → Prop
  | [] => ∀ c ∈ last, isGap c
  | s :: ss =>
    (∀ c ∈ s.gap, isGap c) ∧ Writes s.text (textBefore last ss) s.token ∧ LawfulBefore last ss

def text (g : Segmentation) : List Char := textBefore g.last g.segments

def Lawful (g : Segmentation) : Prop := LawfulBefore g.last g.segments

def tokens (g : Segmentation) : List Token := g.segments.map Segment.token

end Segmentation

namespace Kind

theorem mem_signs_of_ofChar? {c : Char} {k : Kind} (h : ofChar? c = some k) : k ∈ signs := by
  unfold ofChar? at h
  split at h <;> cases h <;> decide

theorem exists_ofChar?_of_mem_signs {k : Kind} (h : k ∈ signs) :
    k = eq ∨ k = notEq ∨ ∃ c, k.spelling.toList = [c] ∧ ofChar? c = some k := by
  simp only [signs, List.mem_cons, List.not_mem_nil, or_false] at h
  rcases h with rfl | rfl | rfl | rfl | rfl | rfl | rfl | rfl | rfl | rfl | rfl | rfl | rfl | rfl |
    rfl | rfl | rfl | rfl | rfl
  all_goals first
    | exact .inl rfl
    | exact .inr (.inl rfl)
    | exact .inr (.inr ⟨_, rfl, rfl⟩)

theorem ofChar?_of_free {c : Char} (h : ∀ k ∈ signs, k.spelling ≠ c.toString) :
    ofChar? c = none := by
  cases hc : ofChar? c with
  | none => rfl
  | some k =>
    obtain ⟨-, -, -, -, hspelling⟩ := ofChar?_eq_some hc
    exact absurd hspelling.symm (h k (mem_signs_of_ofChar? hc))

theorem ofWord_of_free {word : String} (h : ∀ k ∈ keywords, k.spelling ≠ word) :
    ofWord word = ident := by
  have hnone : keywords.find? (·.spelling == word) = none := by
    simpa [List.find?_eq_none] using h
  rw [ofWord, hnone]
  rfl

end Kind

/-- What the scanner makes of a text that begins with `c`: the token, and what it leaves. -/
structure CutOff (c : Char) (cs rest : List Char) (t : Token) : Prop where
  gap : isGap c = false
  token : (Lexeme.start c (cs ++ rest)).token = t
  rest : (cs ++ rest).drop (Lexeme.start c (cs ++ rest)).more = rest

namespace CutOff

variable {c : Char} {cs rest : List Char}

theorem of_start {t : Token} (gap : isGap c = false)
    (h : Lexeme.start c (cs ++ rest) = ⟨t, cs.length⟩) : CutOff c cs rest t where
  gap := gap
  token := by rw [h]
  rest := by rw [h, List.drop_left]

theorem word (hc : isLetter c) (hcs : ∀ d ∈ cs, isLetter d)
    (hrest : ∀ d ∈ rest.head?, isLetter d = false) :
    CutOff c cs rest ⟨Kind.ofWord (String.ofList (c :: cs)), String.ofList (c :: cs)⟩ :=
  of_start (isGap_of_isLetter hc) (Lexeme.start_word hc hcs hrest)

end CutOff

/-- A text that writes a token is cut off by the scanner. -/
theorem Writes.cutOff {text rest : List Char} {t : Token} (h : Writes text rest t) :
    ∃ c cs, text = c :: cs ∧ CutOff c cs rest t := by
  cases h with
  | @keyword k _ hk ends =>
    obtain ⟨hne, hletters⟩ := Kind.letters_of_mem_keywords hk
    obtain ⟨c, cs, hword⟩ := Token.exists_cons_of_ne_empty hne
    rw [hword] at hletters
    obtain ⟨hc, hcs⟩ := List.forall_mem_cons.mp hletters
    have hcut := CutOff.word hc hcs ends
    rw [← hword, String.ofList_toList, Kind.ofWord_of_mem_keywords hk] at hcut
    exact ⟨c, cs, hword, hcut⟩
  | ident ne letters free ends =>
    obtain ⟨c, cs, rfl⟩ := List.exists_cons_of_ne_nil ne
    obtain ⟨hc, hcs⟩ := List.forall_mem_cons.mp letters
    have hcut := CutOff.word hc hcs ends
    rw [Kind.ofWord_of_free free] at hcut
    exact ⟨c, cs, rfl, hcut⟩
  | numeral ne hdigits ends =>
    obtain ⟨c, cs, rfl⟩ := List.exists_cons_of_ne_nil ne
    obtain ⟨hc, hcs⟩ := List.forall_mem_cons.mp hdigits
    exact ⟨c, cs, rfl, .of_start (isGap_of_isDigit hc) (Lexeme.start_numeral hc hcs ends)⟩
  | @quoted body _ noQuote =>
    have hstart := Lexeme.start_quote noQuote rest
    refine ⟨'"', body ++ ['"'], rfl, .of_start (by decide) ?_⟩
    simpa using hstart
  | @unclosed body noQuote =>
    have hbody : body.takeWhile (!isQuote ·) = body := by
      have hall : ∀ c ∈ body, !isQuote c := by simpa using noQuote
      have hend : ∀ c ∈ ([] : List Char).head?, (!isQuote c) = false := nofun
      simpa using takeWhile_append_of_head hall hend
    have hstart : Lexeme.start '"' body = ⟨⟨.string, String.ofList body⟩, body.length + 1⟩ := by
      have hquoted : Lexeme.start '"' body = Lexeme.quoted body := rfl
      rw [hquoted, Lexeme.quoted, hbody]
    refine ⟨'"', body, rfl, by decide, ?_, ?_⟩ <;> simp [hstart]
  | @sign k _ hk ends =>
    rcases Kind.exists_ofChar?_of_mem_signs hk with rfl | rfl | ⟨c, htext, hc⟩
    · exact ⟨'=', ['='], rfl, .of_start (by decide) rfl⟩
    · exact ⟨'!', ['='], rfl, .of_start (by decide) rfl⟩
    · obtain ⟨hgap, hletter, hdigit, hquote, hspelling⟩ := Kind.ofChar?_eq_some hc
      have halone : c = '=' ∨ c = '!' → rest.head? ≠ some '=' := by
        rintro (rfl | rfl)
        · cases hc
          exact ends (.inl rfl)
        · cases hc
          exact ends (.inr rfl)
      have hstart := Lexeme.start_sign hletter hdigit hquote halone
      rw [hc, hspelling] at hstart
      exact ⟨c, [], htext, .of_start hgap hstart⟩
  | @other c _ gap letter digit quote free =>
    have hnone := Kind.ofChar?_of_free free
    have halone : c = '=' ∨ c = '!' → rest.head? ≠ some '=' := by
      rintro (rfl | rfl) <;> cases hnone
    have hstart := Lexeme.start_sign letter digit quote halone
    rw [hnone] at hstart
    exact ⟨c, [], rfl, .of_start gap hstart⟩

/-- No two texts write a token at the same place. -/
theorem Writes.unique {text text' rest rest' : List Char} {t t' : Token} (h : Writes text rest t)
    (h' : Writes text' rest' t') (heq : text ++ rest = text' ++ rest') :
    text = text' ∧ rest = rest' ∧ t = t' := by
  obtain ⟨c, cs, rfl, hcut⟩ := h.cutOff
  obtain ⟨c', cs', rfl, hcut'⟩ := h'.cutOff
  have heq' := heq
  rw [List.cons_append, List.cons_append] at heq'
  obtain ⟨rfl, htail⟩ := List.cons.inj heq'
  have hrest : rest = rest' := by rw [← hcut.rest, ← hcut'.rest, htail]
  have htoken : t = t' := by rw [← hcut.token, ← hcut'.token, htail]
  subst hrest
  exact ⟨List.append_cancel_right heq, rfl, htoken⟩

/-- Only a string that is left open is written otherwise than it is spelled. -/
theorem Writes.eq_spelled {text rest : List Char} {t : Token} (h : Writes text rest t)
    (hclosed : rest = [] → t.kind ≠ .string) : text = t.spelled.toList := by
  cases h with
  | keyword hk | sign hk =>
    rw [Token.spelled_of_ne]
    rintro rfl
    revert hk
    decide
  | ident | numeral | quoted | other => simp [Token.spelled]
  | unclosed => exact absurd rfl (hclosed rfl)

/-- What is written of a token may stand before a gap and at the end of the source too, but nothing
may be put behind an open string. -/
theorem Writes.before {text rest rest' : List Char} {t : Token} (h : Writes text rest t)
    (hhead : ∀ c ∈ rest'.head?, isGap c ∨ c ∈ rest.head?)
    (hclosed : rest = [] → rest' = [] ∨ text = t.spelled.toList) : Writes text rest' t := by
  cases h with
  | keyword hk ends =>
    exact .keyword hk fun c hc => (hhead c hc).elim (fun hgap => (isGap_disjoint hgap).1) (ends c)
  | ident ne letters free ends =>
    exact .ident ne letters free fun c hc =>
      (hhead c hc).elim (fun hgap => (isGap_disjoint hgap).1) (ends c)
  | numeral ne hdigits ends =>
    exact .numeral ne hdigits fun c hc =>
      (hhead c hc).elim (fun hgap => (isGap_disjoint hgap).2.1) (ends c)
  | quoted noQuote => exact .quoted noQuote
  | @unclosed body noQuote =>
    rcases hclosed rfl with rfl | htext
    · exact .unclosed noQuote
    · have hlength := congrArg List.length htext
      simp [Token.spelled] at hlength
  | sign hk ends =>
    exact .sign hk fun hlonger hnext =>
      (hhead _ hnext).elim (fun hgap => (isGap_disjoint hgap).2.2.2 rfl) (ends hlonger)
  | other gap letter digit quote free => exact .other gap letter digit quote free

theorem exists_run (p : Char → Bool) (source : List Char) :
    ∃ run rest, source = run ++ rest ∧ (∀ c ∈ run, p c) ∧ ∀ c ∈ rest.head?, p c = false := by
  refine ⟨source.takeWhile p, source.dropWhile p, List.takeWhile_append_dropWhile.symm,
    List.all_eq_true.mp List.all_takeWhile, fun c hc => ?_⟩
  have hhead := List.head?_dropWhile_not p source
  rw [hc] at hhead
  exact hhead

theorem writes_word {c : Char} {cs rest : List Char} (letters : ∀ d ∈ c :: cs, isLetter d)
    (ends : ∀ d ∈ rest.head?, isLetter d = false) : ∃ t, Writes (c :: cs) rest t := by
  by_cases hfree : ∀ k ∈ Kind.keywords, k.spelling ≠ String.ofList (c :: cs)
  · exact ⟨_, .ident (List.cons_ne_nil c cs) letters hfree ends⟩
  · obtain ⟨k, hk, hspelling⟩ : ∃ k ∈ Kind.keywords, k.spelling = String.ofList (c :: cs) := by
      simpa using hfree
    have hkeyword := Writes.keyword hk ends
    rw [hspelling, String.toList_ofList] at hkeyword
    exact ⟨_, hkeyword⟩

/-- A sign takes two characters where it can. -/
theorem writes_sign {c : Char} {k : Kind} (hc : Kind.ofChar? c = some k) (rest : List Char) :
    ∃ text rest' t, c :: rest = text ++ rest' ∧ Writes text rest' t := by
  have hspelling := (Kind.ofChar?_eq_some hc).2.2.2.2
  have htext : k.spelling.toList = [c] := by
    rw [← hspelling]
    simp
  by_cases hlonger : (k = .assign ∨ k = .bang) ∧ rest.head? = some '='
  · obtain ⟨hk, hnext⟩ := hlonger
    obtain ⟨rest', rfl⟩ : ∃ rest', rest = '=' :: rest' := List.head?_eq_some_iff.mp hnext
    have hchar : c = '=' ∨ c = '!' := by
      rcases hk with rfl | rfl
      · exact .inl (List.cons.inj htext).1.symm
      · exact .inr (List.cons.inj htext).1.symm
    rcases hchar with rfl | rfl
    · exact ⟨['=', '='], rest', _, rfl, .sign (k := .eq) (by decide) nofun⟩
    · exact ⟨['!', '='], rest', _, rfl, .sign (k := .notEq) (by decide) nofun⟩
  · refine ⟨[c], rest, ⟨k, k.spelling⟩, rfl, htext ▸ .sign (Kind.mem_signs_of_ofChar? hc) ?_⟩
    exact fun hk hnext => hlonger ⟨hk, hnext⟩

/-- Where no gap stands a token is written. -/
theorem exists_writes {c : Char} (hc : isGap c = false) (rest : List Char) :
    ∃ text rest' t, c :: rest = text ++ rest' ∧ Writes text rest' t := by
  by_cases hletter : isLetter c
  · obtain ⟨run, rest', rfl, hrun, hends⟩ := exists_run isLetter rest
    obtain ⟨t, ht⟩ := writes_word (List.forall_mem_cons.mpr ⟨hletter, hrun⟩) hends
    exact ⟨c :: run, rest', t, rfl, ht⟩
  by_cases hdigit : isDigit c
  · obtain ⟨run, rest', rfl, hrun, hends⟩ := exists_run isDigit rest
    have hdigits : ∀ d ∈ c :: run, isDigit d := List.forall_mem_cons.mpr ⟨hdigit, hrun⟩
    exact ⟨c :: run, rest', _, rfl, .numeral (List.cons_ne_nil c run) hdigits hends⟩
  by_cases hquote : isQuote c
  · obtain rfl : c = '"' := by simpa [isQuote] using hquote
    obtain ⟨body, rest', rfl, hbody, hends⟩ := exists_run (!isQuote ·) rest
    have hnone : ∀ d ∈ body, isQuote d = false := by simpa using hbody
    cases rest' with
    | nil => exact ⟨'"' :: body, [], _, by simp, .unclosed hnone⟩
    | cons d rest' =>
      obtain rfl : d = '"' := by simpa [isQuote] using hends d rfl
      exact ⟨'"' :: (body ++ ['"']), rest', _, by simp, .quoted hnone⟩
  cases hsign : Kind.ofChar? c with
  | some k => exact writes_sign hsign rest
  | none =>
    refine ⟨[c], rest, _, rfl, .other hc (by simpa using hletter) (by simpa using hdigit)
      (by simpa using hquote) fun k hk hspelling => ?_⟩
    have htext : k.spelling.toList = [c] := by
      rw [hspelling]
      simp
    rcases Kind.exists_ofChar?_of_mem_signs hk with rfl | rfl | ⟨d, hone, hd⟩
    · cases htext
    · cases htext
    · obtain rfl : c = d := (List.cons.inj (htext.symm.trans hone)).1
      rw [hsign] at hd
      cases hd

namespace Segmentation

theorem exists_lawful (source : List Char) : ∃ g : Segmentation, g.text = source ∧ g.Lawful := by
  induction hlength : source.length using Nat.strongRecOn generalizing source with
  | ind n ih =>
    obtain ⟨gap, rest, rfl, hgap, hends⟩ := exists_run isGap source
    cases rest with
    | nil => exact ⟨⟨[], gap⟩, (List.append_nil gap).symm, hgap⟩
    | cons c rest =>
      obtain ⟨written, rest', t, heq, hwrites⟩ := exists_writes (hends c rfl) rest
      obtain ⟨d, ds, rfl, -⟩ := hwrites.cutOff
      have hshorter : rest'.length < n := by
        rw [← hlength, heq]
        simp only [List.length_append, List.length_cons]
        omega
      obtain ⟨⟨ss, last⟩, rfl, hlawful⟩ := ih _ hshorter rest' rfl
      exact ⟨⟨⟨gap, d :: ds, t⟩ :: ss, last⟩, by rw [heq]; rfl, hgap, hwrites, hlawful⟩

theorem gap_unique {gap gap' rest rest' : List Char} (hgap : ∀ c ∈ gap, isGap c)
    (hgap' : ∀ c ∈ gap', isGap c) (hrest : ∀ c ∈ rest.head?, isGap c = false)
    (hrest' : ∀ c ∈ rest'.head?, isGap c = false) (h : gap ++ rest = gap' ++ rest') :
    gap = gap' ∧ rest = rest' := by
  have heq : gap = gap' := by
    rw [← takeWhile_append_of_head hgap hrest, h, takeWhile_append_of_head hgap' hrest']
  subst heq
  exact ⟨rfl, List.append_cancel_left h⟩

theorem head?_written {written rest : List Char} {t : Token} (h : Writes written rest t) :
    ∀ c ∈ (written ++ rest).head?, isGap c = false := by
  obtain ⟨c, cs, rfl, hcut⟩ := h.cutOff
  rintro d ⟨⟩
  exact hcut.gap

theorem ne_last {last gap written rest : List Char} {t : Token} (hlast : ∀ c ∈ last, isGap c)
    (hgap : ∀ c ∈ gap, isGap c) (h : Writes written rest t) : gap ++ (written ++ rest) ≠ last := by
  intro heq
  rw [← List.append_nil last] at heq
  have hend : ∀ c ∈ ([] : List Char).head?, isGap c = false := nofun
  obtain ⟨-, hrest⟩ := gap_unique hgap hlast (head?_written h) hend heq
  obtain ⟨c, cs, rfl, -⟩ := h.cutOff
  cases hrest

theorem Lawful.unique {g g' : Segmentation} (h : g.Lawful) (h' : g'.Lawful)
    (heq : g.text = g'.text) : g = g' := by
  obtain ⟨ss, last⟩ := g
  obtain ⟨ss', last'⟩ := g'
  induction ss generalizing ss' with
  | nil =>
    cases ss' with
    | nil =>
      have hlast : last = last' := heq
      rw [hlast]
    | cons s' ss' =>
      obtain ⟨hgap', hwrites', -⟩ := h'
      exact absurd heq (Ne.symm (ne_last h hgap' hwrites'))
  | cons s ss ih =>
    obtain ⟨hgap, hwrites, hmore⟩ := h
    cases ss' with
    | nil =>
      exact absurd heq (ne_last h' hgap hwrites)
    | cons s' ss' =>
      obtain ⟨hgap', hwrites', hmore'⟩ := h'
      obtain ⟨hgapEq, hrest⟩ :=
        gap_unique hgap hgap' (head?_written hwrites) (head?_written hwrites') heq
      obtain ⟨htext, hrest', htoken⟩ := hwrites.unique hwrites' hrest
      have htail := ih hmore ss' hmore' hrest'
      obtain ⟨gap, written, t⟩ := s
      obtain ⟨gap', written', t'⟩ := s'
      cases hgapEq
      cases htext
      cases htoken
      cases htail
      rfl

theorem tokenize_gaps {gap : List Char} (h : ∀ c ∈ gap, isGap c) (rest : List Char) :
    tokenize (gap ++ rest) = tokenize rest := by
  induction gap with
  | nil => rfl
  | cons c gap ih =>
    obtain ⟨hc, hgap⟩ := List.forall_mem_cons.mp h
    rw [List.cons_append, tokenize_gap hc, ih hgap]

/-- The tokens of a source are those of its segments. -/
theorem Lawful.tokenize_text {g : Segmentation} (h : g.Lawful) : tokenize g.text = g.tokens := by
  obtain ⟨ss, last⟩ := g
  induction ss with
  | nil =>
    have hgaps := tokenize_gaps h []
    rwa [List.append_nil, tokenize_nil] at hgaps
  | cons s ss ih =>
    obtain ⟨hgap, hwrites, hmore⟩ := h
    obtain ⟨c, cs, hcs, hcut⟩ := hwrites.cutOff
    rw [text, textBefore, tokenize_gaps hgap, hcs, List.cons_append, tokenize_cons hcut.gap,
      hcut.token, hcut.rest]
    exact congrArg (s.token :: ·) (ih hmore)

end Segmentation

/-- Every source falls apart into gaps and written tokens in exactly one way, with no character
left over, and a scanner hands out exactly these tokens and then the end of input. -/
theorem existsUnique_segmentation (source : String) :
    (∃! g : Segmentation, g.text = source.toList ∧ g.Lawful) ∧
    ∀ g : Segmentation, g.text = source.toList → g.Lawful →
      (Scanner.ofText source).drain.1 = g.tokens ++ [.eof] := by
  constructor
  · obtain ⟨g, htext, hlawful⟩ := Segmentation.exists_lawful source.toList
    refine ⟨g, ⟨htext, hlawful⟩, ?_⟩
    rintro g' ⟨htext', hlawful'⟩
    exact hlawful'.unique hlawful (htext'.trans htext.symm)
  · intro g htext hlawful
    have hrest : (Scanner.ofText source).rest = g.text := htext.symm
    rw [Scanner.drain_fst, hrest, hlawful.tokenize_text]

end TreeWalk
