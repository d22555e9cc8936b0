import Mathlib.Data.List.Forall2
import TreeWalk.Proofs.Segmentation

namespace TreeWalk

namespace Kind

/-- What a token of a kind can be in the text. -/
def Admits (k : Kind) (literal : String) : Prop :=
  match k with
  | ident => literal ≠ "" ∧ (∀ c ∈ literal.toList, isLetter c) ∧
      ∀ k ∈ keywords, k.spelling ≠ literal
  | int => literal ≠ "" ∧ ∀ c ∈ literal.toList, isDigit c
  | string => ∀ c ∈ literal.toList, isQuote c = false
  | illegal => ∃ c, literal = c.toString ∧ isGap c = false ∧ isLetter c = false ∧
      isDigit c = false ∧ isQuote c = false ∧ ∀ k ∈ signs, k.spelling ≠ literal
  | k => k.isFixed ∧ literal = k.spelling

theorem isFixed_iff {k : Kind} : k.isFixed ↔ k ∈ keywords ∨ k ∈ signs := by
  cases k <;> decide

theorem admits_spelling {k : Kind} (h : k.isFixed) : k.Admits k.spelling := by
  cases k with
  | illegal | eof | ident | int | string => cases h
  | _ => exact ⟨rfl, rfl⟩

end Kind

section
variable {text rest : List Char} {t : Token}

theorem Writes.admits (h : Writes text rest t) : t.kind.Admits t.literal := by
  cases h with
  | keyword hk => exact Kind.admits_spelling (Kind.isFixed_iff.mpr (.inl hk))
  | sign hk => exact Kind.admits_spelling (Kind.isFixed_iff.mpr (.inr hk))
  | ident ne letters free =>
    exact ⟨by simpa using ne, by simpa using letters, free⟩
  | numeral ne hdigits => exact ⟨by simpa using ne, by simpa using hdigits⟩
  | quoted noQuote | unclosed noQuote => simpa [Kind.Admits] using noQuote
  | other gap letter digit quote free => exact ⟨_, rfl, gap, letter, digit, quote, free⟩

theorem Kind.writes_spelling {k : Kind} (h : k.isFixed) (hrest : ∀ c ∈ rest.head?, isGap c) :
    Writes k.spelling.toList rest k.token := by
  rcases isFixed_iff.mp h with hk | hk
  · exact .keyword hk fun c hc => (isGap_disjoint (hrest c hc)).1
  · exact .sign hk fun _ hnext => (isGap_disjoint (hrest _ hnext)).2.2.2 rfl

theorem Token.writes_spelled (h : t.kind.Admits t.literal) (hrest : ∀ c ∈ rest.head?, isGap c) :
    Writes t.spelled.toList rest t := by
  have hends := fun c hc => isGap_disjoint (hrest c hc)
  obtain ⟨kind, literal⟩ := t
  cases kind with
  | ident =>
    obtain ⟨ne, letters, free⟩ := h
    have hwrites := Writes.ident (mt String.toList_eq_nil_iff.mp ne) letters
      (by rwa [String.ofList_toList]) fun c hc => (hends c hc).1
    rwa [String.ofList_toList] at hwrites
  | int =>
    obtain ⟨ne, digits⟩ := h
    have hwrites := Writes.numeral (mt String.toList_eq_nil_iff.mp ne) digits
      fun c hc => (hends c hc).2.1
    rwa [String.ofList_toList] at hwrites
  | string =>
    have hwrites : Writes _ rest _ := .quoted h
    rw [String.ofList_toList] at hwrites
    simpa [spelled] using hwrites
  | illegal =>
    obtain ⟨c, rfl, gap, letter, digit, quote, free⟩ := h
    have hwrites : Writes [c] rest _ := .other gap letter digit quote free
    simpa [spelled] using hwrites
  | eof => cases h.1
  | _ =>
    obtain ⟨hfixed, hliteral⟩ := h
    dsimp only at hliteral
    subst hliteral
    exact Kind.writes_spelling hfixed hrest

namespace Segmentation

theorem LawfulBefore.exists_writes {last : List Char} {ss : List Segment}
    (h : LawfulBefore last ss) : ∀ s ∈ ss, ∃ rest, Writes s.text rest s.token := by
  induction ss with
  | nil => nofun
  | cons s ss ih => exact List.forall_mem_cons.mpr ⟨⟨_, h.2.1⟩, ih h.2.2⟩

/-- Every token of a source is what its kind admits. -/
theorem admits_of_mem {source : List Char} {t : Token} (h : t ∈ tokenize source) :
    t.kind.Admits t.literal := by
  obtain ⟨g, rfl, hlawful⟩ := exists_lawful source
  rw [hlawful.tokenize_text] at h
  obtain ⟨s, hs, rfl⟩ := List.mem_map.mp h
  obtain ⟨rest, hwrites⟩ := LawfulBefore.exists_writes hlawful s hs
  exact hwrites.admits

end Segmentation

end

namespace Segmentation

theorem Lawful.drain {g : Segmentation} (h : g.Lawful) :
    (Scanner.ofText (String.ofList g.text)).drain.1 = g.tokens ++ [.eof] := by
  rw [Scanner.drain_fst, Scanner.ofText, String.toList_ofList, h.tokenize_text]

def ofTokens (parts : List (List Char × Token)) (last : List Char) : Segmentation :=
  ⟨parts.map fun p => ⟨p.1, p.2.spelled.toList, p.2⟩, last⟩

theorem tokens_ofTokens (parts : List (List Char × Token)) (last : List Char) :
    (ofTokens parts last).tokens = parts.map Prod.snd := by
  simp [tokens, ofTokens, Function.comp_def]

end Segmentation

/-- Tokens that a source can have, each after a gap, with some space between any two of them. -/
structure Spacing (parts : List (List Char × Token)) (last : List Char) : Prop where
  tokens : ∀ p ∈ parts, p.2.kind.Admits p.2.literal
  gaps : ∀ p ∈ parts, ∀ c ∈ p.1, isGap c
  apart : ∀ p ∈ parts.tail, p.1 ≠ []
  last : ∀ c ∈ last, isGap c

namespace Spacing

open Segmentation

variable {parts : List (List Char × Token)} {last : List Char}

theorem tail {p : List Char × Token} (h : Spacing (p :: parts) last) : Spacing parts last where
  tokens := (List.forall_mem_cons.mp h.tokens).2
  gaps := (List.forall_mem_cons.mp h.gaps).2
  apart q hq := h.apart q (List.mem_of_mem_tail hq)
  last := h.last

theorem head?_behind {p : List Char × Token} (h : Spacing (p :: parts) last) :
    ∀ c ∈ (ofTokens parts last).text.head?, isGap c := by
  intro c hc
  cases parts with
  | nil => exact h.last c (List.mem_of_head? hc)
  | cons q parts =>
    have hne : q.1 ≠ [] := h.apart q List.mem_cons_self
    obtain ⟨d, gap, hgap⟩ := List.exists_cons_of_ne_nil hne
    have hhead : (ofTokens (q :: parts) last).text.head? = some d := by
      simp [ofTokens, text, textBefore, hgap]
    rw [hhead] at hc
    cases hc
    exact h.tail.gaps q List.mem_cons_self c (hgap ▸ List.mem_cons_self)

theorem lawful (h : Spacing parts last) : (ofTokens parts last).Lawful := by
  induction parts with
  | nil => exact h.last
  | cons p parts ih =>
    have hwrites := Token.writes_spelled (h.tokens p List.mem_cons_self) h.head?_behind
    exact ⟨h.gaps p List.mem_cons_self, hwrites, ih h.tail⟩

end Spacing

/-- The tokens a scanner can hand out are those whose kind admits their text. -/
theorem Token.admits_iff (t : Token) :
    t.kind.Admits t.literal ↔ t ≠ .eof ∧ ∃ source, t ∈ (Scanner.ofText source).drain.1 := by
  constructor
  · intro h
    refine ⟨?_, String.ofList (Segmentation.ofTokens [([], t)] []).text, ?_⟩
    · rintro rfl
      cases h.1
    · have hspacing : Spacing [([], t)] [] := ⟨by simpa using h, by simp, by simp, by simp⟩
      rw [hspacing.lawful.drain, Segmentation.tokens_ofTokens]
      exact List.mem_cons_self
  · rintro ⟨hne, source, ht⟩
    rw [Scanner.drain_fst, List.mem_append, List.mem_singleton] at ht
    exact Segmentation.admits_of_mem (ht.resolve_right hne)

structure Segment.Moved (s s' : Segment) : Prop where
  text : s'.text = s.text
  token : s'.token = s.token
  gap : ∀ c ∈ s'.gap, isGap c
  apart : s.gap ≠ [] → s'.gap ≠ []

/-- A source in which only the space is another. A string that is left open at the end of the
source would take space behind it for its own. -/
structure Respaced (g g' : Segmentation) : Prop where
  segments : List.Forall₂ Segment.Moved g.segments g'.segments
  last : ∀ c ∈ g'.last, isGap c
  closed : g'.last = [] ∨ ∀ s ∈ g.segments, s.text = s.token.spelled.toList

namespace Segmentation

variable {last last' : List Char} {ss ss' : List Segment}

/-- Where only the space is another, a text ends before a gap or before the same character. -/
theorem head?_textBefore_moved (h : LawfulBefore last ss)
    (hmoved : List.Forall₂ Segment.Moved ss ss') (hlast : ∀ c ∈ last', isGap c) :
    ∀ c ∈ (textBefore last' ss').head?, isGap c ∨ c ∈ (textBefore last ss).head? := by
  intro c hc
  cases hmoved with
  | nil => exact .inl (hlast c (List.mem_of_head? hc))
  | @cons s s' ss ss' hs =>
    obtain ⟨-, hwrites, -⟩ := h
    obtain ⟨d, ds, htext, -⟩ := hwrites.cutOff
    rw [textBefore, hs.text, htext] at hc
    cases hgap : s'.gap with
    | nil =>
      have hnone : s.gap = [] := by_contra fun hne => hs.apart hne hgap
      rw [hgap] at hc
      rw [textBefore, hnone, htext]
      exact .inr hc
    | cons e gap =>
      rw [hgap] at hc
      cases hc
      exact .inl (hs.gap c (hgap ▸ List.mem_cons_self))

theorem eq_nil_of_textBefore (h : LawfulBefore last ss) (hnil : textBefore last ss = []) :
    ss = [] := by
  cases ss with
  | nil => rfl
  | cons s ss =>
    obtain ⟨-, hwrites, -⟩ := h
    obtain ⟨d, ds, htext, -⟩ := hwrites.cutOff
    simp [textBefore, htext] at hnil

theorem LawfulBefore.moved (h : LawfulBefore last ss) (hmoved : List.Forall₂ Segment.Moved ss ss')
    (hlast : ∀ c ∈ last', isGap c)
    (hclosed : last' = [] ∨ ∀ s ∈ ss, s.text = s.token.spelled.toList) :
    LawfulBefore last' ss' := by
  induction hmoved with
  | nil => exact hlast
  | @cons s s' ss ss' hs hmoved ih =>
    obtain ⟨hgap, hwrites, hmore⟩ := h
    have hend : textBefore last ss = [] →
        textBefore last' ss' = [] ∨ s.text = s.token.spelled.toList := by
      intro hnil
      obtain rfl := eq_nil_of_textBefore hmore hnil
      cases hmoved
      exact hclosed.imp_right fun hall => hall s List.mem_cons_self
    have hwrites' := hwrites.before (head?_textBefore_moved hmore hmoved hlast) hend
    rw [← hs.text, ← hs.token] at hwrites'
    exact ⟨hs.gap, hwrites', ih hmore (hclosed.imp_right fun h => (List.forall_mem_cons.mp h).2)⟩

end Segmentation

theorem Respaced.lawful {g g' : Segmentation} (h : Respaced g g') (hg : g.Lawful) : g'.Lawful :=
  Segmentation.LawfulBefore.moved hg h.segments h.last h.closed

theorem Respaced.tokens_eq {g g' : Segmentation} (h : Respaced g g') : g'.tokens = g.tokens := by
  obtain ⟨ss, last⟩ := g
  obtain ⟨ss', last'⟩ := g'
  have hsegments : List.Forall₂ Segment.Moved ss ss' := h.segments
  show ss'.map Segment.token = ss.map Segment.token
  clear h
  induction hsegments with
  | nil => rfl
  | cons hs _ ih => rw [List.map_cons, List.map_cons, hs.token, ih]

/-- Tokens that are written with some space between them are read back, and then comes the end of
input; these are all tokens there are. In any source, space may be put in another's place. -/
theorem tokens_read_back :
    (∀ t : Token, t.kind.Admits t.literal ↔
      t ≠ .eof ∧ ∃ source, t ∈ (Scanner.ofText source).drain.1) ∧
    (∀ parts last, Spacing parts last →
      (Scanner.ofText (String.ofList (Segmentation.ofTokens parts last).text)).drain.1 =
        parts.map Prod.snd ++ [.eof]) ∧
    ∀ g g' : Segmentation, g.Lawful → Respaced g g' →
      (Scanner.ofText (String.ofList g'.text)).drain.1 =
        (Scanner.ofText (String.ofList g.text)).drain.1 := by
  refine ⟨Token.admits_iff, fun parts last h => ?_, fun g g' hg h => ?_⟩
  · rw [h.lawful.drain, Segmentation.tokens_ofTokens]
  · rw [(h.lawful hg).drain, hg.drain, h.tokens_eq]

/-- Two signs that would be one without the gap, before a string with brackets and space in it. -/
def signsApart : List (List Char × Token) :=
  [([], ⟨.ident, "x"⟩), ([' '], Kind.assign.token), (['\n', '\t'], Kind.assign.token),
    (['\r'], ⟨.string, "( == [\n"⟩), ([' ', ' '], ⟨.illegal, "@"⟩)]

def wordAndOpenString (first second : List Char) : Segmentation :=
  ⟨[⟨first, ['a'], ⟨.ident, "a"⟩⟩, ⟨second, ['"', 'b', ' '], ⟨.string, "b "⟩⟩], []⟩

theorem tokens_read_back_signs_apart :
    Spacing signsApart ['\n'] ∧
    (Scanner.ofText "x =\n\t=\r\"( == [\n\"  @\n").drain.1 =
      [⟨.ident, "x"⟩, Kind.assign.token, Kind.assign.token, ⟨.string, "( == [\n"⟩, ⟨.illegal, "@"⟩,
        .eof] ∧
    (wordAndOpenString [] [' ']).Lawful ∧
    Respaced (wordAndOpenString [] [' ']) (wordAndOpenString ['\t'] ['\n', '\r']) ∧
    (Scanner.ofText "\ta\n\r\"b ").drain.1 = (Scanner.ofText "a \"b ").drain.1 := by
  have hspacing : Spacing signsApart ['\n'] := by
    refine ⟨?_, by simp [signsApart, isGap], by decide, by simp [isGap]⟩
    simp only [signsApart, List.forall_mem_cons]
    refine ⟨⟨by decide, by simp [isLetter], by decide⟩, ⟨rfl, rfl⟩, ⟨rfl, rfl⟩, ?_, ?_, by simp⟩
    · show ∀ c ∈ "( == [\n".toList, isQuote c = false
      simp [isQuote]
    · exact ⟨'@', rfl, by decide, by decide, by decide, by decide, by decide⟩
  have hlawful : (wordAndOpenString [] [' ']).Lawful := by
    refine ⟨by simp, .ident (by decide) (by simp [isLetter]) (by decide) ?_, by simp [isGap],
      .unclosed (by simp [isQuote]), by simp [Segmentation.LawfulBefore, wordAndOpenString]⟩
    rintro c ⟨⟩
    rfl
  have hrespaced :
      Respaced (wordAndOpenString [] [' ']) (wordAndOpenString ['\t'] ['\n', '\r']) :=
    ⟨.cons ⟨rfl, rfl, by simp [isGap], by simp⟩ (.cons ⟨rfl, rfl, by simp [isGap], by simp⟩ .nil),
      by simp [wordAndOpenString], .inl rfl⟩
  have hspaced := tokens_read_back.2.1 _ _ hspacing
  have hopen := tokens_read_back.2.2 _ _ hlawful hrespaced
  have htext : (Segmentation.ofTokens signsApart ['\n']).text =
      "x =\n\t=\r\"( == [\n\"  @\n".toList := by decide
  have hbefore : (wordAndOpenString [] [' ']).text = "a \"b ".toList := by decide
  have hafter : (wordAndOpenString ['\t'] ['\n', '\r']).text = "\ta\n\r\"b ".toList := by decide
  rw [htext, String.ofList_toList] at hspaced
  rw [hbefore, hafter, String.ofList_toList, String.ofList_toList] at hopen
  exact ⟨hspacing, hspaced, hlawful, hrespaced, hopen⟩

end TreeWalk
