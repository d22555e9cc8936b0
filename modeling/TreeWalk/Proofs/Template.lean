import TreeWalk.Fault

/-! A text that is escaped survives being filled, and without arguments nothing else can be filled.
-/
namespace TreeWalk
namespace Template

def isBrace (c : Char) : Bool := c == '{' || c == '}'

variable {args : List (List Char)} {numbering : Numbering}

theorem fillFrom_plain {c : Char} (h : isBrace c = false) (rest : List Char) :
    fillFrom args (c :: rest) none numbering =
      (fillFrom args rest none numbering).map (c :: ·) := by
  obtain ⟨hopen, hclose⟩ : c ≠ '{' ∧ c ≠ '}' := by simpa [isBrace] using h
  rw [fillFrom]
  · simp only [hopen, hclose, ↓reduceIte]
    rfl
  · rintro _ rfl
    exact absurd rfl hopen
  · rintro _ rfl
    exact absurd rfl hclose

/-- Text without braces comes out as it stands. -/
theorem fillFrom_append {text : List Char} (h : text.any isBrace = false) (rest : List Char) :
    fillFrom args (text ++ rest) none numbering =
      (fillFrom args rest none numbering).map (text ++ ·) := by
  induction text with
  | nil =>
    rw [List.nil_append]
    cases fillFrom args rest none numbering <;> rfl
  | cons c text ih =>
    rw [List.any_cons, Bool.or_eq_false_iff] at h
    rw [List.cons_append, fillFrom_plain h.1, ih h.2]
    cases fillFrom args rest none numbering <;> rfl

theorem fillFrom_slot (x : List Char) (rest : List Char) :
    fillFrom (x :: args) ('{' :: '}' :: rest) none .undecided =
      (fillFrom (x :: args) rest none (.inTurn 1)).map (x ++ ·) := by
  rw [fillFrom]
  · simp only [↓reduceIte, List.isEmpty_cons, Bool.false_eq_true]
    rw [fillFrom]
    simp only [↓reduceIte, slot, List.isEmpty_nil, argument, List.getElem?_cons_zero]
    change (fillFrom (x :: args) rest none (.inTurn 1) >>= fun text => pure (x ++ text)) = _
    cases fillFrom (x :: args) rest none (.inTurn 1) <;> rfl
  · nofun
  · nofun

theorem fillFrom_escape (text : List Char) :
    fillFrom args (text.flatMap fun c => if c = '{' ∨ c = '}' then [c, c] else [c]) none numbering =
      .ok text := by
  induction text with
  | nil => rw [List.flatMap_nil, fillFrom]; rfl
  | cons c text ih =>
    rw [List.flatMap_cons]
    split
    · next hbrace =>
      rcases hbrace with rfl | rfl
      · rw [List.cons_append, List.singleton_append, fillFrom, ih]
        rfl
      · rw [List.cons_append, List.singleton_append, fillFrom, ih]
        rfl
    · next hbrace =>
      have hplain : isBrace c = false := by simpa [isBrace] using hbrace
      rw [List.singleton_append, fillFrom_plain hplain, ih]
      rfl

theorem fill_slot {before after : String} (hbefore : before.toList.any isBrace = false)
    (hafter : after.toList.any isBrace = false) (x : String) :
    fill (before ++ "\x7b\x7d" ++ after) [x] = .ok (before ++ x ++ after) := by
  have hend : fillFrom [x.toList] (after.toList ++ []) none (.inTurn 1) = _ :=
    fillFrom_append hafter []
  rw [List.append_nil] at hend
  unfold fill
  rw [String.toList_append, String.toList_append, List.append_assoc, fillFrom_append hbefore]
  change ((fillFrom [x.toList] ('{' :: '}' :: after.toList) none .undecided).map _).map _ = _
  rw [fillFrom_slot, hend]
  simp [fillFrom, Except.map, pure, Except.pure, String.append_assoc]

def doubled (b : Char) (text : List Char) : List Char :=
  text.flatMap fun c => if c = b then [c, c] else [c]

/-- Escaping is doubling one brace and then the other: neither pass meets what the other writes. -/
theorem toList_escape (text : String) :
    (escape text).toList = doubled '}' (doubled '{' text.toList) := by
  unfold escape doubled
  rw [String.toList_ofList, List.flatMap_assoc]
  congr 1
  funext c
  by_cases hopen : c = '{'
  · subst hopen
    rfl
  · simp [hopen]

theorem slot_nil_ne_ok (numbering : Numbering) (name : List Char) (r : List Char × Numbering) :
    slot [] numbering name ≠ .ok r := by
  unfold slot
  split
  · cases numbering <;> nofun
  · cases hposition : positionFrom 0 name with
    | error f => nofun
    | ok position? => cases position? <;> cases numbering <;> nofun

/-- Without arguments no slot is ever filled. -/
theorem fillFrom_nil_some_ne_ok (template name : List Char) (numbering : Numbering)
    (text : List Char) : fillFrom [] template (some name) numbering ≠ .ok text := by
  induction template generalizing name with
  | nil => nofun
  | cons c rest ih =>
    rw [fillFrom]
    split
    · cases hslot : slot [] numbering name with
      | error f => nofun
      | ok r => exact absurd hslot (slot_nil_ne_ok numbering name r)
    · split
      · nofun
      · split
        · nofun
        · exact ih _

theorem exists_of_bind_cons {filled : Except Stop (List Char)} {c : Char} {text : List Char}
    (h : (do return c :: (← filled)) = .ok text) :
    ∃ rest, filled = .ok rest ∧ text = c :: rest := by
  cases filled with
  | error f => cases h
  | ok rest =>
    cases h
    exact ⟨rest, rfl, rfl⟩

/-- Escaped texts are the only templates that can be filled without arguments. -/
theorem eq_of_fillFrom_nil {template text : List Char} {numbering : Numbering}
    (h : fillFrom [] template none numbering = .ok text) :
    template = text.flatMap fun c => if c = '{' ∨ c = '}' then [c, c] else [c] := by
  generalize hname : (none : Option (List Char)) = name? at h
  fun_induction fillFrom [] template name? numbering generalizing text with
  | case1 =>
    cases h
    rfl
  | case2 rest numbering ih | case3 rest numbering ih =>
    obtain ⟨text, hrest, rfl⟩ := exists_of_bind_cons h
    rw [ih rfl hrest]
    rfl
  | case4 | case6 => cases h
  | case5 => exact absurd h (fillFrom_nil_some_ne_ok _ _ _ _)
  | case7 c rest numbering _ _ hopen hclose ih =>
    obtain ⟨text, hrest, rfl⟩ := exists_of_bind_cons h
    rw [ih rfl hrest]
    simp [hopen, hclose]
  | case8 | case9 | case10 | case11 | case12 => cases hname

theorem fill_nil_eq_ok_iff (template text : String) :
    fill template [] = .ok text ↔ template = escape text := by
  unfold fill
  constructor
  · intro h
    cases hfilled : fillFrom [] template.toList none .undecided with
    | error f =>
      rw [List.map_nil, hfilled] at h
      cases h
    | ok filled =>
      rw [List.map_nil, hfilled] at h
      cases h
      rw [escape, String.toList_ofList, ← eq_of_fillFrom_nil hfilled, String.ofList_toList]
  · rintro rfl
    rw [escape, String.toList_ofList, fillFrom_escape]
    exact congrArg Except.ok String.ofList_toList

end Template

theorem Fault.tell_slot (style : Style) {template before after : String}
    (htemplate : template = before ++ "\x7b\x7d" ++ after)
    (hbefore : before.toList.any Template.isBrace = false)
    (hafter : after.toList.any Template.isBrace = false) (text : String) (internal : Bool) :
    Fault.tell style template [text] internal =
      .told (before ++ style.bold text ++ after) internal := by
  unfold Fault.tell
  rw [htemplate, List.map_cons, List.map_nil, Template.fill_slot hbefore hafter]

def Fault.rejectionText (errors : List String) : String :=
  toString errors.length ++ " parse " ++ (if errors.length = 1 then "error" else "errors") ++ ":"
    ++ String.join (errors.map ("\n\t" ++ ·))

theorem any_isBrace_numeral (n : Nat) :
    (toString n).toList.any Template.isBrace = false := by
  have hdigits : (toString n).toList = Nat.toDigits 10 n := Nat.toList_repr
  rw [hdigits, List.any_eq_false]
  intro c hc hbrace
  have hdigit := Nat.isDigit_of_mem_toDigits (by decide) (by decide) hc
  simp only [Template.isBrace, Bool.or_eq_true, beq_iff_eq] at hbrace
  rcases hbrace with rfl | rfl
  · cases hdigit
  · cases hdigit

theorem Fault.rejection_eq (errors : List String) :
    Fault.rejection errors = .rejected errors (Fault.rejectionText errors) := by
  let heading := toString errors.length ++ " parse " ++
    (if errors.length = 1 then "error" else "errors") ++ ":"
  have hplain : heading.toList.any Template.isBrace = false := by
    simp only [heading, String.toList_append, List.any_append, Bool.or_eq_false_iff]
    refine ⟨⟨⟨any_isBrace_numeral _, by decide⟩, ?_⟩, by decide⟩
    split <;> decide
  have hfill : Template.fill (Fault.rejectionTemplate errors) [] =
      .ok (Fault.rejectionText errors) := by
    unfold Template.fill Fault.rejectionTemplate Template.escape
    rw [String.toList_append, String.toList_ofList, Template.fillFrom_append hplain,
      Template.fillFrom_escape]
    simp only [Except.map]
    rw [← String.toList_append, String.ofList_toList]
    rfl
  unfold Fault.rejection
  rw [hfill]

/-- A rejection is always made, and its message is the heading and then each error on a line of its
own, letter for letter. The errors survive because doubling one brace and then the other escapes a
text, and filling an escaped text without arguments, and nothing else, gives the text. -/
theorem rejection_tells_errors (errors : List String) :
    Fault.rejection errors = .rejected errors
      ((if errors.length = 1 then "1 parse error:" else toString errors.length ++ " parse errors:")
        ++ String.join (errors.map ("\n\t" ++ ·))) ∧
    (∀ text, (Template.escape text).toList =
      Template.doubled '}' (Template.doubled '{' text.toList)) ∧
    ∀ template text, Template.fill template [] = .ok text ↔ template = Template.escape text := by
  refine ⟨?_, Template.toList_escape, Template.fill_nil_eq_ok_iff⟩
  rw [Fault.rejection_eq, Fault.rejectionText]
  congr 2
  by_cases hone : errors.length = 1
  · simp only [hone, if_true]
    rfl
  · simp only [hone, if_false, String.append_assoc]
    rfl

end TreeWalk
