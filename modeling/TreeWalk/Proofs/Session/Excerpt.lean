import TreeWalk.Proofs.Segmentation
import TreeWalk.Session.Excerpt

namespace TreeWalk

structure Trimmed (text : List Char) : Prop where
  head : ∀ c ∈ text.head?, isBlank c = false
  last : ∀ c ∈ text.getLast?, isBlank c = false

structure TrimsTo (source text : List Char) : Prop where
  trimmed : Trimmed text
  around : ∃ before behind, source = before ++ (text ++ behind) ∧ (∀ c ∈ before, isBlank c) ∧
    ∀ c ∈ behind, isBlank c

/-- The first line of a text, without the blanks at the end of the line. -/
structure FirstLine (text line : List Char) : Prop where
  last : ∀ c ∈ line.getLast?, isBlank c = false
  behind : ∃ blanks rest, text = line ++ blanks ++ rest ∧ (∀ c ∈ blanks, isBlank c) ∧
    '\n' ∉ line ++ blanks ∧ ∀ c ∈ rest.head?, c = '\n'

section

variable {source text line before behind rest : List Char}

theorem dropWhile_append_of_head {p : Char → Bool} (hbefore : ∀ c ∈ before, p c)
    (hrest : ∀ c ∈ rest.head?, p c = false) : (before ++ rest).dropWhile p = rest := by
  rw [List.dropWhile_append_of_pos hbefore]
  cases rest with
  | nil => rfl
  | cons c rest => simp [hrest c rfl]

theorem trimLeft_append (hbefore : ∀ c ∈ before, isBlank c)
    (hrest : ∀ c ∈ rest.head?, isBlank c = false) : trimLeft (before ++ rest) = rest :=
  dropWhile_append_of_head hbefore hrest

theorem trimRight_append (htext : ∀ c ∈ text.getLast?, isBlank c = false)
    (hbehind : ∀ c ∈ behind, isBlank c) : trimRight (text ++ behind) = text := by
  rw [trimRight, List.reverse_append, dropWhile_append_of_head (by simpa using hbehind)
    (by simpa using htext), List.reverse_reverse]

theorem trim_of_blank (h : ∀ c ∈ source, isBlank c) : trim source = [] := by
  have hleft : trimLeft (source ++ []) = [] := trimLeft_append h nofun
  rw [List.append_nil] at hleft
  rw [trim, hleft]
  rfl

theorem TrimsTo.trim_eq (h : TrimsTo source text) : trim source = text := by
  obtain ⟨before, behind, rfl, hbefore, hbehind⟩ := h.around
  cases text with
  | nil =>
    refine trim_of_blank fun c hc => ?_
    rcases List.mem_append.mp hc with hc | hc
    · exact hbefore c hc
    · exact hbehind c hc
  | cons c text =>
    have hfirst : ∀ d ∈ (c :: text ++ behind).head?, isBlank d = false := h.trimmed.head
    rw [trim, trimLeft_append hbefore hfirst, trimRight_append h.trimmed.last hbehind]

theorem exists_blanks_behind (source : List Char) :
    ∃ text behind, source = text ++ behind ∧ (∀ c ∈ text.getLast?, isBlank c = false) ∧
      ∀ c ∈ behind, isBlank c := by
  obtain ⟨behind, text, heq, hbehind, htext⟩ := exists_run isBlank source.reverse
  refine ⟨text.reverse, behind.reverse, ?_, by simpa using htext, by simpa using hbehind⟩
  rw [← List.reverse_append, ← heq, List.reverse_reverse]

theorem exists_trimsTo (source : List Char) : ∃ text, TrimsTo source text := by
  obtain ⟨before, rest, rfl, hbefore, hrest⟩ := exists_run isBlank source
  obtain ⟨text, behind, rfl, htext, hbehind⟩ := exists_blanks_behind rest
  refine ⟨text, ⟨fun c hc => hrest c ?_, htext⟩, before, behind, rfl, hbefore, hbehind⟩
  rw [Option.mem_def, List.head?_append, hc]
  rfl

theorem FirstLine.trimRight_eq (h : FirstLine text line) :
    trimRight (text.takeWhile (· ≠ '\n')) = line := by
  obtain ⟨blanks, rest, rfl, hblanks, hline, hrest⟩ := h.behind
  rw [takeWhile_append_of_head, trimRight_append h.last hblanks]
  · intro c hc
    simpa using fun heq : c = '\n' => hline (heq ▸ hc)
  · simpa using hrest

theorem exists_firstLine (text : List Char) : ∃ line, FirstLine text line := by
  obtain ⟨whole, rest, rfl, hwhole, hrest⟩ := exists_run (· ≠ '\n') text
  obtain ⟨line, blanks, rfl, hline, hblanks⟩ := exists_blanks_behind whole
  refine ⟨line, hline, blanks, rest, rfl, hblanks, ?_, by simpa using hrest⟩
  exact fun hmem => by simpa using hwhole _ hmem

theorem TrimsTo.eq_nil_iff (h : TrimsTo source text) :
    text = [] ↔ ∀ c ∈ source, isBlank c := by
  obtain ⟨before, behind, rfl, hbefore, hbehind⟩ := h.around
  constructor
  · rintro rfl c hc
    rcases List.mem_append.mp hc with hc | hc
    · exact hbefore c hc
    · exact hbehind c hc
  · intro hblank
    cases text with
    | nil => rfl
    | cons c text =>
      have hc : isBlank c = false := h.trimmed.head c rfl
      rw [hblank c (by simp)] at hc
      cases hc

end

section

variable {text line : List Char}

theorem isBlank_newline : isBlank '\n' = true := by decide

theorem firstLine_self (hlast : ∀ c ∈ text.getLast?, isBlank c = false) (hline : '\n' ∉ text) :
    FirstLine text text :=
  ⟨hlast, [], [], by simp, by simp, by simpa using hline, nofun⟩

theorem FirstLine.eq_of_not_mem (h : FirstLine text line) (htrimmed : Trimmed text)
    (hline : '\n' ∉ text) : line = text :=
  h.trimRight_eq.symm.trans (firstLine_self htrimmed.last hline).trimRight_eq

theorem FirstLine.not_mem (h : FirstLine text line) : '\n' ∉ line := by
  obtain ⟨blanks, rest, -, -, hline, -⟩ := h.behind
  exact fun hmem => hline (List.mem_append_left _ hmem)

/-- The first line of a text that begins with no blank begins as the text does. -/
theorem FirstLine.head?_eq (h : FirstLine text line) (htrimmed : Trimmed text) :
    line.head? = text.head? := by
  obtain ⟨blanks, rest, rfl, hblanks, -, hrest⟩ := h.behind
  cases line with
  | cons c line => rfl
  | nil =>
    cases blanks with
    | cons c blanks =>
      have hc : isBlank c = false := htrimmed.head c rfl
      rw [hblanks c List.mem_cons_self] at hc
      cases hc
    | nil =>
      cases rest with
      | nil => rfl
      | cons c rest =>
        have hc : isBlank c = false := htrimmed.head c rfl
        rw [hrest c rfl, isBlank_newline] at hc
        cases hc

end

/-- A text that an excerpt shows: short, of one line, and with no blank at either end. -/
structure Concise (text : List Char) : Prop where
  trimmed : Trimmed text
  oneLine : '\n' ∉ text
  short : text.length ≤ excerptWidth

section

variable {source : String} {text line : List Char}

theorem toList_excerpt (htext : TrimsTo source.toList text) (hline : FirstLine text line) :
    (excerpt source).toList =
      if '\n' ∈ text ∨ excerptWidth < line.length then line.take 76 ++ [' ', '.', '.', '.']
      else line := by
  rw [excerpt, htext.trim_eq, hline.trimRight_eq, String.toList_ofList]
  rfl

theorem Trimmed.trimsTo (h : Trimmed text) : TrimsTo text text :=
  ⟨h, [], [], by simp, nofun, nofun⟩

/-- A concise text is its own excerpt. -/
theorem Concise.excerpt_eq (h : Concise source.toList) : excerpt source = source := by
  have hwhole := toList_excerpt h.trimmed.trimsTo (firstLine_self h.trimmed.last h.oneLine)
  rw [if_neg (not_or.mpr ⟨h.oneLine, Nat.not_lt.mpr h.short⟩)] at hwhole
  exact String.toList_injective hwhole

/-- The beginning of a line with dots behind is concise. -/
theorem concise_cut (hne : line ≠ []) (hhead : ∀ c ∈ line.head?, isBlank c = false)
    (hline : '\n' ∉ line) : Concise (line.take 76 ++ [' ', '.', '.', '.']) where
  trimmed := by
    obtain ⟨c, rest, rfl⟩ := List.exists_cons_of_ne_nil hne
    refine ⟨hhead, fun d hd => ?_⟩
    rw [List.getLast?_append] at hd
    cases hd
    decide
  oneLine hmem := by
    rcases List.mem_append.mp hmem with hmem | hmem
    · exact hline (List.mem_of_mem_take hmem)
    · simp at hmem
  short := by
    rw [List.length_append, List.length_take]
    have := Nat.min_le_left 76 line.length
    exact Nat.add_le_add_right this 4

theorem toList_excerpt_of_fits (htext : TrimsTo source.toList text)
    (h : '\n' ∉ text ∧ text.length ≤ excerptWidth) : (excerpt source).toList = text := by
  have hline := firstLine_self htext.trimmed.last h.1
  rw [toList_excerpt htext hline, if_neg (not_or.mpr ⟨h.1, Nat.not_lt.mpr h.2⟩)]

theorem toList_excerpt_of_cut (htext : TrimsTo source.toList text) (hline : FirstLine text line)
    (h : ¬ ('\n' ∉ text ∧ text.length ≤ excerptWidth)) :
    line ≠ [] ∧ (excerpt source).toList = line.take 76 ++ [' ', '.', '.', '.'] := by
  have hcut : '\n' ∈ text ∨ excerptWidth < line.length := by
    by_cases hmem : '\n' ∈ text
    · exact .inl hmem
    · rw [hline.eq_of_not_mem htext.trimmed hmem]
      exact .inr (Nat.not_le.mp fun hshort => h ⟨hmem, hshort⟩)
  refine ⟨?_, by rw [toList_excerpt htext hline, if_pos hcut]⟩
  rintro rfl
  have hnil : text = [] := List.head?_eq_none_iff.mp (hline.head?_eq htext.trimmed).symm
  subst hnil
  exact h ⟨List.not_mem_nil, Nat.zero_le _⟩

end

/-- The excerpt of a source is short and one line, and is its own excerpt; it is empty just for
blank sources. If the source, trimmed, is one line that fits, it is that line; otherwise it is a
beginning of the first line, trimmed before it is cut, with dots behind. -/
theorem excerpt_short_and_stable (source : String) :
    let shown := (excerpt source).toList
    shown.length ≤ 80 ∧ '\n' ∉ shown ∧ (shown = [] ↔ ∀ c ∈ source.toList, isBlank c) ∧
    excerpt (excerpt source) = excerpt source ∧
    ∃ text line, TrimsTo source.toList text ∧ FirstLine text line ∧
      if '\n' ∉ text ∧ text.length ≤ 80 then shown = text
      else shown = line.take 76 ++ [' ', '.', '.', '.'] := by
  intro shown
  obtain ⟨text, htext⟩ := exists_trimsTo source.toList
  obtain ⟨line, hline⟩ := exists_firstLine text
  suffices h : Concise shown ∧ (shown = [] ↔ text = []) ∧
      if '\n' ∉ text ∧ text.length ≤ 80 then shown = text
      else shown = line.take 76 ++ [' ', '.', '.', '.'] by
    obtain ⟨hconcise, hempty, hwhole⟩ := h
    exact ⟨hconcise.short, hconcise.oneLine, hempty.trans htext.eq_nil_iff, hconcise.excerpt_eq,
      text, line, htext, hline, hwhole⟩
  by_cases hfits : '\n' ∉ text ∧ text.length ≤ 80
  · have hshown : shown = text := toList_excerpt_of_fits htext hfits
    rw [if_pos hfits, hshown]
    exact ⟨⟨htext.trimmed, hfits.1, hfits.2⟩, Iff.rfl, rfl⟩
  · obtain ⟨hne, hshown⟩ : line ≠ [] ∧ shown = _ := toList_excerpt_of_cut htext hline hfits
    have hhead := hline.head?_eq htext.trimmed
    have htextNe : text ≠ [] := by
      rintro rfl
      exact hne (List.head?_eq_none_iff.mp hhead)
    rw [if_neg hfits, hshown]
    refine ⟨concise_cut hne (hhead ▸ htext.trimmed.head) hline.not_mem, ?_, rfl⟩
    exact iff_of_false (by simp) htextNe

/-- Blanks around the source and behind its first line are left out. -/
example : excerpt "\x0b let x = 1;\u2003\nlet y = 2;\n" = "let x = 1; ..." := by decide

end TreeWalk
