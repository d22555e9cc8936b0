import TreeWalk.Proofs.Brackets
import TreeWalk.Proofs.Parse.Completeness

/-! A source that ends with a semicolon and leaves no bracket open can be put before any other one,
as faulty as that may be. -/
namespace TreeWalk

theorem Writes.before_gap {text rest : List Char} {t : Token} (h : Writes text rest t)
    (hstring : rest = [] → t.kind ≠ .string) {c : Char} (hc : isGap c) (more : List Char) :
    Writes text (rest ++ c :: more) t := by
  refine h.before (fun d hd => ?_) fun _ => .inr (h.eq_spelled hstring)
  cases rest with
  | nil =>
    cases hd
    exact .inl hc
  | cons => exact .inr hd

/-- Where a gap follows, the tokens before it and behind it are apart. -/
theorem tokenize_append {source : List Char}
    (hlast : ∀ t ∈ (tokenize source).getLast?, t.kind ≠ .string) {c : Char} (hc : isGap c)
    (more : List Char) : tokenize (source ++ c :: more) = tokenize source ++ tokenize more := by
  obtain ⟨⟨ss, last⟩, rfl, hlawful⟩ := Segmentation.exists_lawful source
  rw [hlawful.tokenize_text] at hlast ⊢
  induction ss with
  | nil =>
    have hgaps := Segmentation.tokenize_gaps hlawful (c :: more)
    rw [tokenize_gap hc] at hgaps
    exact hgaps
  | cons s ss ih =>
    obtain ⟨hgap, hwrites, hmore⟩ := hlawful
    replace hwrites : Writes s.text (Segmentation.text ⟨ss, last⟩) s.token := hwrites
    replace hmore : Segmentation.Lawful ⟨ss, last⟩ := hmore
    have htokens : Segmentation.tokens ⟨s :: ss, last⟩ =
        s.token :: Segmentation.tokens ⟨ss, last⟩ := rfl
    have hstring : Segmentation.text ⟨ss, last⟩ = [] → s.token.kind ≠ .string := by
      intro hnil
      have hnone : Segmentation.tokens ⟨ss, last⟩ = [] := by
        rw [← hmore.tokenize_text, hnil, tokenize_nil]
      exact hlast s.token (by rw [htokens, hnone]; rfl)
    have hrest : ∀ t ∈ (Segmentation.tokens ⟨ss, last⟩).getLast?, t.kind ≠ .string := by
      intro t ht
      refine hlast t ?_
      rw [htokens, List.getLast?_cons, ht]
      rfl
    obtain ⟨d, ds, hds, hcut⟩ := (hwrites.before_gap hstring hc more).cutOff
    have htext : Segmentation.text ⟨s :: ss, last⟩ ++ c :: more =
        s.gap ++ d :: (ds ++ (Segmentation.text ⟨ss, last⟩ ++ c :: more)) := by
      simp [Segmentation.text, Segmentation.textBefore, hds]
    rw [htext, Segmentation.tokenize_gaps hgap, tokenize_cons hcut.gap, hcut.token, hcut.rest,
      htokens, List.cons_append]
    exact congrArg (s.token :: ·) (ih hmore hrest)

/-- The weight of a phrase in which every bracket is closed. Lists and parameters end with the token
that closes a bracket opened before them. -/
def Phrase.surplus : Phrase → Int
  | items close _ | moreItems close _ => close.weight
  | parameters _ | moreParameters _ | pairs _ => Kind.weight .rparen
  | _ => 0

theorem Kind.weight_of_isUnary {k : Kind} (h : k.isUnary) : k.weight = 0 := by
  cases k <;> simp_all [isUnary, weight]

theorem Kind.weight_of_isBinary {k : Kind} (h : k.isBinary) : k.weight = 0 := by
  cases k <;> simp_all [isBinary, weight]

theorem Kind.ne_semicolon_of_closesItems {k : Kind} (h : k.closesItems) : k ≠ semicolon := by
  rintro rfl
  cases h

/-- Phrases that a semicolon never ends. -/
def Phrase.isTight : Phrase → Bool
  | program _ | statements _ | statement _ => false
  | items close _ | moreItems close _ => close.closesItems
  | _ => true

def Phrase.isLoose : Phrase → Bool
  | statements _ | statement _ => true
  | _ => false

/-- Tokens that end with a semicolon, if there are any. -/
def Closed (ts : List Token) : Prop := ∀ t, [t] <:+ ts → t.kind = .semicolon

theorem Closed.of_suffix {ts ms : List Token} (h : Closed ts) (hms : ms <:+ ts) : Closed ms :=
  fun t ht => h t (ht.trans hms)

theorem Ends.suffix {ms rest : List Token} (h : Ends ms rest) : rest <:+ ms := by
  cases h with
  | semicolon => exact List.suffix_cons _ _
  | bare => exact List.suffix_refl _

theorem Ends.balance_eq {ms rest : List Token} (h : Ends ms rest) : balance ms = balance rest := by
  cases h with
  | semicolon hk => simp [hk, Kind.weight]
  | bare => rfl

theorem Ends.append {ms rest : List Token} (h : Ends ms rest) (hms : ms ≠ []) (us : List Token) :
    Ends (ms ++ us) (rest ++ us) := by
  cases h with
  | semicolon hk => exact .semicolon hk
  | bare hk hlevel => exact .bare (front_append hms us ▸ hk) (front_append hms us ▸ hlevel)

namespace Reads

variable {p : Phrase} {ts rest : List Token}

theorem suffix (h : Reads p ts rest) : rest <:+ ts := by
  induction h with
  | program _ ih => exact ih
  | nil => exact List.suffix_refl _
  | cons _ _ ih ih' => exact ih'.trans ih
  | letStmt _ _ _ _ ends ih => exact (ends.suffix.trans ih).trans (List.suffix_append [_, _, _] _)
  | returnStmt _ _ ends ih => exact (ends.suffix.trans ih).trans (List.suffix_cons _ _)
  | exprStmt _ ends ih => exact ends.suffix.trans ih
  | block _ _ _ ih =>
    exact ((List.suffix_cons _ _).trans ih).trans (List.suffix_cons _ _)
  | cutBlock => exact List.nil_suffix
  | ident | int | str | true | false => exact List.suffix_cons _ _
  | group _ _ _ ih => exact ((List.suffix_cons _ _).trans ih).trans (List.suffix_cons _ _)
  | unary _ _ _ ih => exact ih.trans (List.suffix_cons _ _)
  | binary _ _ _ _ _ ih ih' => exact (ih'.trans (List.suffix_cons _ _)).trans ih
  | call _ _ _ _ ih ih' => exact (ih'.trans (List.suffix_cons _ _)).trans ih
  | index _ _ _ _ _ ih ih' =>
    exact (((List.suffix_cons _ _).trans ih').trans (List.suffix_cons _ _)).trans ih
  | ifThen _ _ _ _ _ _ ih ih' =>
    exact ((ih'.trans (List.suffix_cons _ _)).trans ih).trans (List.suffix_append [_, _] _)
  | ifElse _ _ _ _ _ _ _ ih ih' ih'' =>
    exact ((((ih''.trans (List.suffix_cons _ _)).trans ih').trans (List.suffix_cons _ _)).trans
      ih).trans (List.suffix_append [_, _] _)
  | function _ _ _ _ ih ih' => exact (ih'.trans ih).trans (List.suffix_append [_, _] _)
  | array _ _ ih | hash _ _ ih => exact ih.trans (List.suffix_cons _ _)
  | noItems | lastItem | noParameters | lastParameter | noPairs => exact List.suffix_cons _ _
  | items _ _ ih ih' => exact ih'.trans ih
  | nextItem _ _ _ ih ih' => exact (ih'.trans ih).trans (List.suffix_cons _ _)
  | parameters _ _ ih => exact ih.trans (List.suffix_cons _ _)
  | nextParameter _ _ _ ih => exact ih.trans (List.suffix_append [_, _] _)
  | lastPair _ _ _ _ ih ih' =>
    exact (((List.suffix_cons _ _).trans ih').trans (List.suffix_cons _ _)).trans ih
  | nextPair _ _ _ _ _ ih ih' ih'' =>
    exact (((ih''.trans (List.suffix_cons _ _)).trans ih').trans (List.suffix_cons _ _)).trans ih

theorem ne_nil (h : Reads p ts rest) (hrest : rest ≠ []) : ts ≠ [] :=
  fun hnil => hrest (List.suffix_nil.mp (hnil ▸ h.suffix))

end Reads

/-- What holds of a phrase whose blocks are all closed. -/
structure Extensible (p : Phrase) (ts rest : List Token) : Prop where
  /-- It is read the same when more tokens follow. -/
  append : ∀ us, (rest = [] → p.isLoose ∧ Closed ts) → Reads p (ts ++ us) (rest ++ us)
  last : p.isTight → ∃ t, t.kind ≠ .semicolon ∧ t :: rest <:+ ts

namespace Extensible

variable {p q : Phrase} {ts ms rest : List Token}

theorem of_tight (hp : p.isLoose = false)
    (append : rest ≠ [] → ∀ us, Reads p (ts ++ us) (rest ++ us))
    (last : p.isTight → ∃ t, t.kind ≠ .semicolon ∧ t :: rest <:+ ts) : Extensible p ts rest where
  append us h := append (fun hrest => by simp [hp] at h; exact h hrest) us
  last := last

theorem of_loose (hp : p.isTight = false)
    (append : ∀ us, (rest = [] → p.isLoose ∧ Closed ts) → Reads p (ts ++ us) (rest ++ us)) :
    Extensible p ts rest where
  append := append
  last h := absurd (hp.symm.trans h) Bool.false_ne_true

/-- A phrase that ends with its own closing token. -/
theorem of_closing {t : Token} {k : Kind} (hp : p.isLoose = false) (ht : t.kind = k)
    (hk : k ≠ .semicolon) (hsuffix : t :: rest <:+ ts)
    (append : ∀ us, Reads p (ts ++ us) (rest ++ us)) : Extensible p ts rest :=
  of_tight hp (fun _ => append) fun _ => ⟨t, ht ▸ hk, hsuffix⟩

/-- A phrase that ends where its last part ends. -/
theorem of_last (h : Extensible q ms rest) (hp : p.isLoose = false) (hq : p.isTight → q.isTight)
    (hms : ms <:+ ts) (append : rest ≠ [] → ∀ us, Reads p (ts ++ us) (rest ++ us)) :
    Extensible p ts rest := by
  refine of_tight hp append fun htight => ?_
  obtain ⟨t, ht, hsuffix⟩ := h.last (hq htight)
  exact ⟨t, ht, hsuffix.trans hms⟩

theorem append_of_ne_nil (h : Extensible p ts rest) (hrest : rest ≠ []) (us : List Token) :
    Reads p (ts ++ us) (rest ++ us) :=
  h.append us fun hnil => absurd hnil hrest

theorem append_cons {t : Token} (h : Extensible p ts (t :: rest)) (us : List Token) :
    Reads p (ts ++ us) (t :: (rest ++ us)) :=
  h.append_of_ne_nil (List.cons_ne_nil t rest) us

/-- Where the end of input ends a statement, there is no semicolon before it. -/
theorem ne_nil_of_ends (h : Extensible p ts ms) (hp : p.isTight) (ends : Ends ms rest)
    (hclosed : rest = [] → Closed ts) : ms ≠ [] := by
  rintro rfl
  obtain ⟨t, ht, hsuffix⟩ := h.last hp
  exact ht (hclosed (List.suffix_nil.mp ends.suffix) t hsuffix)

end Extensible

def Phrase.opened (p : Phrase) (ts rest : List Token) : Int :=
  balance ts - balance rest - p.surplus

/-- A phrase leaves no bracket open unless the end of input cuts one of its blocks. -/
structure Brackets (p : Phrase) (ts rest : List Token) : Prop where
  nonneg : 0 ≤ p.opened ts rest
  extensible : p.opened ts rest = 0 → Extensible p ts rest

namespace Brackets

section

variable {p q q' q'' : Phrase} {ts rest ts₁ rest₁ ts₂ rest₂ ts₃ rest₃ : List Token}

theorem of_token {t : Token} (hp : p.isLoose = false) (hweight : t.kind.weight = p.surplus)
    (ht : p.isTight → t.kind ≠ .semicolon) (reads : ∀ rest, Reads p (t :: rest) rest) :
    Brackets p (t :: rest) rest := by
  have hopened : p.opened (t :: rest) rest = 0 := by
    simp only [Phrase.opened, balance_cons, hweight]
    omega
  refine ⟨Int.le_of_eq hopened.symm, fun _ => ?_⟩
  exact .of_tight hp (fun _ us => reads (rest ++ us)) fun hp => ⟨t, ht hp, List.suffix_refl _⟩

theorem of_part (h : Brackets q ts₁ rest₁) (hopened : p.opened ts rest = q.opened ts₁ rest₁)
    (hextensible : Extensible q ts₁ rest₁ → Extensible p ts rest) : Brackets p ts rest where
  nonneg := hopened ▸ h.nonneg
  extensible hzero := hextensible (h.extensible (hopened ▸ hzero))

theorem of_two (h : Brackets q ts₁ rest₁) (h' : Brackets q' ts₂ rest₂)
    (hopened : p.opened ts rest = q.opened ts₁ rest₁ + q'.opened ts₂ rest₂)
    (hextensible : Extensible q ts₁ rest₁ → Extensible q' ts₂ rest₂ → Extensible p ts rest) :
    Brackets p ts rest := by
  have hnonneg := h.nonneg
  have hnonneg' := h'.nonneg
  exact ⟨by omega, fun hzero =>
    hextensible (h.extensible (by omega)) (h'.extensible (by omega))⟩

theorem of_three (h : Brackets q ts₁ rest₁) (h' : Brackets q' ts₂ rest₂)
    (h'' : Brackets q'' ts₃ rest₃)
    (hopened : p.opened ts rest =
      q.opened ts₁ rest₁ + q'.opened ts₂ rest₂ + q''.opened ts₃ rest₃)
    (hextensible : Extensible q ts₁ rest₁ → Extensible q' ts₂ rest₂ → Extensible q'' ts₃ rest₃ →
      Extensible p ts rest) :
    Brackets p ts rest := by
  have hnonneg := h.nonneg
  have hnonneg' := h'.nonneg
  have hnonneg'' := h''.nonneg
  exact ⟨by omega, fun hzero =>
    hextensible (h.extensible (by omega)) (h'.extensible (by omega)) (h''.extensible (by omega))⟩

end

section

variable {e a b : Node} {ss es ps : List Node} {top top' : Option Level} {k : Kind}
  {t word sign opening closing op comma colon other : Token} {ts ms ns rest : List Token}

theorem cons (head : Reads (.statement e) ts ms) (tail : Reads (.statements ss) ms rest)
    (h : Brackets (.statement e) ts ms) (h' : Brackets (.statements ss) ms rest) :
    Brackets (.statements (e :: ss)) ts rest := by
  refine h.of_two h' (by simp only [Phrase.opened, Phrase.surplus]; omega)
    fun hextensible hextensible' => .of_loose rfl fun us hrest => ?_
  refine .cons (hextensible.append us fun hms => ?_) (hextensible'.append us fun hnil => ?_)
  · exact ⟨rfl, (hrest (List.suffix_nil.mp (hms ▸ tail.suffix))).2⟩
  · exact ⟨rfl, (hrest hnil).2.of_suffix head.suffix⟩

theorem letStmt (hword : word.kind = .letWord) (ht : t.kind = .ident)
    (hsign : sign.kind = .assign) (h : Brackets (.expression top e) ts ms) (ends : Ends ms rest) :
    Brackets (.statement (.letStmt word (.ident t t.literal) e))
      (word :: t :: sign :: ts) rest := by
  refine h.of_part ?_ fun hextensible => .of_loose rfl fun us hrest => ?_
  · simp only [Phrase.opened, Phrase.surplus, balance_cons, hword, ht, hsign, Kind.weight,
      ends.balance_eq]
    omega
  · have hms := hextensible.ne_nil_of_ends rfl ends fun hnil =>
      (hrest hnil).2.of_suffix (List.suffix_append [_, _, _] _)
    exact .letStmt hword ht hsign (hextensible.append_of_ne_nil hms us) (ends.append hms us)

theorem returnStmt (hword : word.kind = .returnWord) (h : Brackets (.expression top e) ts ms)
    (ends : Ends ms rest) : Brackets (.statement (.returnStmt word e)) (word :: ts) rest := by
  refine h.of_part ?_ fun hextensible => .of_loose rfl fun us hrest => ?_
  · simp only [Phrase.opened, Phrase.surplus, balance_cons, hword, Kind.weight, ends.balance_eq]
    omega
  · have hms := hextensible.ne_nil_of_ends rfl ends fun hnil =>
      (hrest hnil).2.of_suffix (List.suffix_cons _ _)
    exact .returnStmt hword (hextensible.append_of_ne_nil hms us) (ends.append hms us)

theorem exprStmt (value : Reads (.expression top e) ts ms) (h : Brackets (.expression top e) ts ms)
    (ends : Ends ms rest) : Brackets (.statement (.exprStmt (front ts) e)) ts rest := by
  refine h.of_part ?_ fun hextensible => .of_loose rfl fun us hrest => ?_
  · simp only [Phrase.opened, Phrase.surplus, ends.balance_eq]
  · have hms := hextensible.ne_nil_of_ends rfl ends fun hnil => (hrest hnil).2
    have hreads : Reads (.statement (.exprStmt (front (ts ++ us)) e)) (ts ++ us) (rest ++ us) :=
      .exprStmt (hextensible.append_of_ne_nil hms us) (ends.append hms us)
    rwa [front_append (value.ne_nil hms)] at hreads

theorem block (hopening : opening.kind = .lbrace) (hclosing : closing.kind = .rbrace)
    (body : Reads (.statements ss) ts (closing :: rest))
    (h : Brackets (.statements ss) ts (closing :: rest)) :
    Brackets (.block (.block opening ss)) (opening :: ts) rest := by
  refine h.of_part ?_ fun hextensible => .of_closing rfl hclosing (by decide) ?_ fun us => ?_
  · simp only [Phrase.opened, Phrase.surplus, balance_cons, hopening, hclosing, Kind.weight]
    omega
  · exact body.suffix.trans (List.suffix_cons _ _)
  · exact .block hopening (hextensible.append_cons us) hclosing

/-- The brace that is not closed is the one bracket too many. -/
theorem cutBlock (hopening : opening.kind = .lbrace) (h : Brackets (.statements ss) ts []) :
    Brackets (.block (.block opening ss)) (opening :: ts) [] := by
  have hnonneg := h.nonneg
  simp only [Phrase.opened, Phrase.surplus] at hnonneg
  constructor
  all_goals
    simp only [Phrase.opened, Phrase.surplus, balance_cons, hopening, Kind.weight]
    omega

theorem group (hopening : opening.kind = .lparen) (hclosing : closing.kind = .rparen)
    (inner : Reads (.expression top e) ts (closing :: rest))
    (h : Brackets (.expression top e) ts (closing :: rest)) :
    Brackets (.expression none e) (opening :: ts) rest := by
  refine h.of_part ?_ fun hextensible => .of_closing rfl hclosing (by decide) ?_ fun us => ?_
  · simp only [Phrase.opened, Phrase.surplus, balance_cons, hopening, hclosing, Kind.weight]
    omega
  · exact inner.suffix.trans (List.suffix_cons _ _)
  · exact .group hopening (hextensible.append_cons us) hclosing

theorem unary (hop : op.kind.isUnary) (h : Brackets (.expression top e) ts rest)
    (level : Level.unary.rank ≤ topRank top) :
    Brackets (.expression (some .unary) (.unary op op.literal e)) (op :: ts) rest := by
  refine h.of_part ?_ fun hextensible =>
    hextensible.of_last rfl (fun _ => rfl) (List.suffix_cons _ _) fun hrest us => ?_
  · simp only [Phrase.opened, Phrase.surplus, balance_cons, Kind.weight_of_isUnary hop]
    omega
  · exact .unary hop (hextensible.append_of_ne_nil hrest us) level

theorem binary (hop : op.kind.isBinary) (left : Reads (.expression top a) ts (op :: ms))
    (h : Brackets (.expression top a) ts (op :: ms)) (h' : Brackets (.expression top' b) ms rest)
    (hleft : op.kind.level.rank ≤ topRank top) (hright : op.kind.level.rank < topRank top') :
    Brackets (.expression (some op.kind.level) (.binary op op.literal a b)) ts rest := by
  refine h.of_two h' ?_ fun hextensible hextensible' =>
    hextensible'.of_last rfl (fun _ => rfl) ?_ fun hrest us => ?_
  · simp only [Phrase.opened, Phrase.surplus, balance_cons, Kind.weight_of_isBinary hop]
    omega
  · exact (List.suffix_cons _ _).trans left.suffix
  · exact .binary hop (hextensible.append_cons us) (hextensible'.append_of_ne_nil hrest us) hleft
      hright

theorem call (hopening : opening.kind = .lparen)
    (function : Reads (.expression top e) ts (opening :: ms))
    (h : Brackets (.expression top e) ts (opening :: ms))
    (h' : Brackets (.items .rparen es) ms rest) (level : Level.call.rank ≤ topRank top) :
    Brackets (.expression (some .call) (.call opening e es)) ts rest := by
  refine h.of_two h' ?_ fun hextensible hextensible' =>
    hextensible'.of_last rfl (fun _ => rfl) ?_ fun hrest us => ?_
  · simp only [Phrase.opened, Phrase.surplus, balance_cons, hopening, Kind.weight]
    omega
  · exact (List.suffix_cons _ _).trans function.suffix
  · exact .call hopening (hextensible.append_cons us) (hextensible'.append_of_ne_nil hrest us) level

theorem index (hopening : opening.kind = .lbracket) (hclosing : closing.kind = .rbracket)
    (left : Reads (.expression top a) ts (opening :: ms))
    (position : Reads (.expression top' b) ms (closing :: rest))
    (h : Brackets (.expression top a) ts (opening :: ms))
    (h' : Brackets (.expression top' b) ms (closing :: rest))
    (level : Level.call.rank ≤ topRank top) :
    Brackets (.expression (some .index) (.index opening a b)) ts rest := by
  refine h.of_two h' ?_ fun hextensible hextensible' =>
    .of_closing rfl hclosing (by decide) ?_ fun us => ?_
  · simp only [Phrase.opened, Phrase.surplus, balance_cons, hopening, hclosing, Kind.weight]
    omega
  · exact (position.suffix.trans (List.suffix_cons _ _)).trans left.suffix
  · exact .index hopening (hextensible.append_cons us) (hextensible'.append_cons us) hclosing level

theorem ifThen (hword : word.kind = .ifWord) (hopening : opening.kind = .lparen)
    (hclosing : closing.kind = .rparen) (condition : Reads (.expression top e) ts (closing :: ms))
    (noElse : (front rest).kind ≠ .elseWord) (h : Brackets (.expression top e) ts (closing :: ms))
    (h' : Brackets (.block a) ms rest) :
    Brackets (.expression none (.ifExpr word e a .missing)) (word :: opening :: ts) rest := by
  refine h.of_two h' ?_ fun hextensible hextensible' =>
    hextensible'.of_last rfl (fun _ => rfl) ?_ fun hrest us => ?_
  · simp only [Phrase.opened, Phrase.surplus, balance_cons, hword, hopening, hclosing, Kind.weight]
    omega
  · exact ((List.suffix_cons _ _).trans condition.suffix).trans (List.suffix_append [_, _] _)
  · exact .ifThen hword hopening (hextensible.append_cons us) hclosing
      (hextensible'.append_of_ne_nil hrest us) (front_append hrest us ▸ noElse)

theorem ifElse (hword : word.kind = .ifWord) (hopening : opening.kind = .lparen)
    (hclosing : closing.kind = .rparen) (hother : other.kind = .elseWord)
    (condition : Reads (.expression top e) ts (closing :: ms))
    (consequence : Reads (.block a) ms (other :: ns))
    (h : Brackets (.expression top e) ts (closing :: ms))
    (h' : Brackets (.block a) ms (other :: ns)) (h'' : Brackets (.block b) ns rest) :
    Brackets (.expression none (.ifExpr word e a b)) (word :: opening :: ts) rest := by
  refine h.of_three h' h'' ?_ fun hextensible hextensible' hextensible'' =>
    hextensible''.of_last rfl (fun _ => rfl) ?_ fun hrest us => ?_
  · simp only [Phrase.opened, Phrase.surplus, balance_cons, hword, hopening, hclosing, hother,
      Kind.weight]
    omega
  · exact (((List.suffix_cons _ _).trans consequence.suffix).trans
      ((List.suffix_cons _ _).trans condition.suffix)).trans (List.suffix_append [_, _] _)
  · exact .ifElse hword hopening (hextensible.append_cons us) hclosing
      (hextensible'.append_cons us) hother (hextensible''.append_of_ne_nil hrest us)

theorem function (hword : word.kind = .fnWord) (hopening : opening.kind = .lparen)
    (names : Reads (.parameters ps) ts ms) (body : Reads (.block b) ms rest)
    (h : Brackets (.parameters ps) ts ms) (h' : Brackets (.block b) ms rest) :
    Brackets (.expression none (.fnLit word ps b)) (word :: opening :: ts) rest := by
  refine h.of_two h' ?_ fun hextensible hextensible' =>
    hextensible'.of_last rfl (fun _ => rfl) ?_ fun hrest us => ?_
  · simp only [Phrase.opened, Phrase.surplus, balance_cons, hword, hopening, Kind.weight]
    omega
  · exact names.suffix.trans (List.suffix_append [_, _] _)
  · exact .function hword hopening (hextensible.append_of_ne_nil (body.ne_nil hrest) us)
      (hextensible'.append_of_ne_nil hrest us)

theorem array (hopening : opening.kind = .lbracket) (h : Brackets (.items .rbracket es) ts rest) :
    Brackets (.expression none (.arrayLit opening es)) (opening :: ts) rest := by
  refine h.of_part ?_ fun hextensible =>
    hextensible.of_last rfl (fun _ => rfl) (List.suffix_cons _ _) fun hrest us => ?_
  · simp only [Phrase.opened, Phrase.surplus, balance_cons, hopening, Kind.weight]
    omega
  · exact .array hopening (hextensible.append_of_ne_nil hrest us)

theorem hash {ps : List (Node × Node)} (hopening : opening.kind = .lbrace)
    (h : Brackets (.pairs ps) ts rest) :
    Brackets (.expression none (.hashLit opening ps)) (opening :: ts) rest := by
  refine h.of_part ?_ fun hextensible =>
    hextensible.of_last rfl (fun _ => rfl) (List.suffix_cons _ _) fun hrest us => ?_
  · simp only [Phrase.opened, Phrase.surplus, balance_cons, hopening, Kind.weight]
    omega
  · exact .hash hopening (hextensible.append_of_ne_nil hrest us)

theorem items (first : Reads (.expression top e) ts ms) (more : Reads (.moreItems k es) ms rest)
    (h : Brackets (.expression top e) ts ms) (h' : Brackets (.moreItems k es) ms rest) :
    Brackets (.items k (e :: es)) ts rest := by
  refine h.of_two h' ?_ fun hextensible hextensible' =>
    hextensible'.of_last rfl id first.suffix fun hrest us => ?_
  · simp only [Phrase.opened, Phrase.surplus]
    omega
  · exact .items (hextensible.append_of_ne_nil (more.ne_nil hrest) us)
      (hextensible'.append_of_ne_nil hrest us)

theorem nextItem (hcomma : comma.kind = .comma) (first : Reads (.expression top e) ts ms)
    (more : Reads (.moreItems k es) ms rest) (h : Brackets (.expression top e) ts ms)
    (h' : Brackets (.moreItems k es) ms rest) :
    Brackets (.moreItems k (e :: es)) (comma :: ts) rest := by
  refine h.of_two h' ?_ fun hextensible hextensible' =>
    hextensible'.of_last rfl id (first.suffix.trans (List.suffix_cons _ _)) fun hrest us => ?_
  · have hweight : Kind.weight .comma = 0 := rfl
    simp only [Phrase.opened, Phrase.surplus, balance_cons, hcomma, hweight]
    omega
  · exact .nextItem hcomma (hextensible.append_of_ne_nil (more.ne_nil hrest) us)
      (hextensible'.append_of_ne_nil hrest us)

theorem parameters (ht : t.kind = .ident) (h : Brackets (.moreParameters ps) ts rest) :
    Brackets (.parameters (.ident t t.literal :: ps)) (t :: ts) rest := by
  refine h.of_part ?_ fun hextensible =>
    hextensible.of_last rfl (fun _ => rfl) (List.suffix_cons _ _) fun hrest us => ?_
  · simp only [Phrase.opened, Phrase.surplus, balance_cons, ht, Kind.weight]
    omega
  · exact .parameters ht (hextensible.append_of_ne_nil hrest us)

theorem nextParameter (hcomma : comma.kind = .comma) (ht : t.kind = .ident)
    (h : Brackets (.moreParameters ps) ts rest) :
    Brackets (.moreParameters (.ident t t.literal :: ps)) (comma :: t :: ts) rest := by
  refine h.of_part ?_ fun hextensible =>
    hextensible.of_last rfl (fun _ => rfl) (List.suffix_append [_, _] _) fun hrest us => ?_
  · simp only [Phrase.opened, Phrase.surplus, balance_cons, hcomma, ht, Kind.weight]
    omega
  · exact .nextParameter hcomma ht (hextensible.append_of_ne_nil hrest us)

theorem lastPair (hcolon : colon.kind = .colon) (hclosing : closing.kind = .rbrace)
    (hkey : Reads (.expression top a) ts (colon :: ms))
    (hvalue : Reads (.expression top' b) ms (closing :: rest))
    (h : Brackets (.expression top a) ts (colon :: ms))
    (h' : Brackets (.expression top' b) ms (closing :: rest)) :
    Brackets (.pairs [(a, b)]) ts rest := by
  refine h.of_two h' ?_ fun hextensible hextensible' =>
    .of_closing rfl hclosing (by decide) ?_ fun us => ?_
  · simp only [Phrase.opened, Phrase.surplus, balance_cons, hcolon, hclosing, Kind.weight]
    omega
  · exact (hvalue.suffix.trans (List.suffix_cons _ _)).trans hkey.suffix
  · exact .lastPair (hextensible.append_cons us) hcolon (hextensible'.append_cons us) hclosing

theorem nextPair {ps : List (Node × Node)} (hcolon : colon.kind = .colon)
    (hcomma : comma.kind = .comma) (hkey : Reads (.expression top a) ts (colon :: ms))
    (hvalue : Reads (.expression top' b) ms (comma :: ns))
    (h : Brackets (.expression top a) ts (colon :: ms))
    (h' : Brackets (.expression top' b) ms (comma :: ns)) (h'' : Brackets (.pairs ps) ns rest) :
    Brackets (.pairs ((a, b) :: ps)) ts rest := by
  refine h.of_three h' h'' ?_ fun hextensible hextensible' hextensible'' =>
    hextensible''.of_last rfl (fun _ => rfl) ?_ fun hrest us => ?_
  · simp only [Phrase.opened, Phrase.surplus, balance_cons, hcolon, hcomma, Kind.weight]
    omega
  · exact ((List.suffix_cons _ _).trans hvalue.suffix).trans
      ((List.suffix_cons _ _).trans hkey.suffix)
  · exact .nextPair (hextensible.append_cons us) hcolon (hextensible'.append_cons us) hcomma
      (hextensible''.append_of_ne_nil hrest us)

end

end Brackets

theorem Reads.brackets {p : Phrase} {ts rest : List Token} (h : Reads p ts rest) :
    Brackets p ts rest := by
  induction h with
  | program _ ih =>
    refine ih.of_part rfl fun _ => .of_loose rfl fun us hrest => ?_
    exact absurd (hrest rfl).1 Bool.false_ne_true
  | nil =>
    have hopened {ts : List Token} : (Phrase.statements []).opened ts ts = 0 := by
      simp [Phrase.opened, Phrase.surplus]
    exact ⟨Int.le_of_eq hopened.symm, fun _ => .of_loose rfl fun _ _ => .nil⟩
  | cons head tail ih ih' => exact .cons head tail ih ih'
  | letStmt hword hname hsign _ ends ih => exact .letStmt hword hname hsign ih ends
  | returnStmt hword _ ends ih => exact .returnStmt hword ih ends
  | exprStmt value ends ih => exact .exprStmt value ih ends
  | block hopening body hclosing ih => exact .block hopening hclosing body ih
  | cutBlock hopening _ ih => exact .cutBlock hopening ih
  | ident ht | str ht | true ht | false ht =>
    refine .of_token rfl (by rw [ht]; rfl) (fun _ => by simp [ht]) fun _ => ?_
    constructor
    exact ht
  | int ht =>
    exact .of_token rfl (by rw [ht.kind]; rfl) (fun _ => by simp [ht.kind]) fun _ => .int ht
  | group hopening inner hclosing ih => exact .group hopening hclosing inner ih
  | unary hop _ level ih => exact .unary hop ih level
  | binary hop left _ hleft hright ih ih' => exact .binary hop left ih ih' hleft hright
  | call hopening function _ level ih ih' => exact .call hopening function ih ih' level
  | index hopening left position hclosing level ih ih' =>
    exact .index hopening hclosing left position ih ih' level
  | ifThen hword hopening condition hclosing _ noElse ih ih' =>
    exact .ifThen hword hopening hclosing condition noElse ih ih'
  | ifElse hword hopening condition hclosing consequence hother _ ih ih' ih'' =>
    exact .ifElse hword hopening hclosing hother condition consequence ih ih' ih''
  | function hword hopening names body ih ih' => exact .function hword hopening names body ih ih'
  | array hopening _ ih => exact .array hopening ih
  | hash hopening _ ih => exact .hash hopening ih
  | noItems hclosing =>
    exact .of_token rfl (hclosing ▸ rfl)
      (fun hk => hclosing ▸ Kind.ne_semicolon_of_closesItems hk) fun _ => .noItems hclosing
  | items first more ih ih' => exact .items first more ih ih'
  | lastItem hclosing =>
    exact .of_token rfl (hclosing ▸ rfl)
      (fun hk => hclosing ▸ Kind.ne_semicolon_of_closesItems hk) fun _ => .lastItem hclosing
  | nextItem hcomma first more ih ih' => exact .nextItem hcomma first more ih ih'
  | noParameters hclosing =>
    exact .of_token rfl (hclosing ▸ rfl) (fun _ => by simp [hclosing])
      fun _ => .noParameters hclosing
  | parameters hname _ ih => exact .parameters hname ih
  | lastParameter hclosing =>
    exact .of_token rfl (hclosing ▸ rfl) (fun _ => by simp [hclosing])
      fun _ => .lastParameter hclosing
  | nextParameter hcomma hname _ ih => exact .nextParameter hcomma hname ih
  | noPairs hclosing =>
    exact .of_token rfl (by rw [hclosing]; rfl) (fun _ => by simp [hclosing])
      fun _ => .noPairs hclosing
  | lastPair hkey hcolon hvalue hclosing ih ih' =>
    exact .lastPair hcolon hclosing hkey hvalue ih ih'
  | nextPair hkey hcolon hvalue hcomma _ ih ih' ih'' =>
    exact .nextPair hcolon hcomma hkey hvalue ih ih' ih''

theorem closed_of_getLast? {ts : List Token} (h : ∀ t ∈ ts.getLast?, t.kind = .semicolon) :
    Closed ts := by
  rintro t ⟨ms, rfl⟩
  exact h t (by simp)

/-- Statements that are closed off can be followed by anything. -/
theorem Reads.statements_append {ss : List Node} {ts : List Token}
    (h : Reads (.statements ss) ts []) (hbalance : balance ts = 0) (hclosed : Closed ts)
    (us : List Token) : Reads (.statements ss) (ts ++ us) us := by
  have hopened : (Phrase.statements ss).opened ts [] = 0 := by
    simp [Phrase.opened, Phrase.surplus, hbalance]
  exact (h.brackets.extensible hopened).append us fun _ => ⟨rfl, hclosed⟩

namespace Parse

/-- Behind statements that follow the grammar, reading goes on with what is left. -/
theorem run_statements_of_reads {p : Phrase} {ts rest : List Token} (h : Reads p ts rest)
    {ss : List Node} (hp : p = .statements ss) :
    ∃ least, ∀ n, least ≤ n → (statements (n + ss.length) false).run ⟨ts, []⟩ =
      ((statements n false).run ⟨rest, []⟩).map fun r => (ss ++ r.1, r.2) := by
  induction h generalizing ss with
  | @nil ts =>
    cases hp
    refine ⟨0, fun n _ => ?_⟩
    change _ = Except.map id _
    simp
  | @cons s ss' ts ms rest head tail ih ih' =>
    cases hp
    obtain ⟨ns, hns, least, hhead⟩ := complete head
    obtain ⟨least', htail⟩ := ih' rfl
    obtain ⟨heof, -⟩ := head.front_statement
    refine ⟨least + least', fun n hn => ?_⟩
    have hmissing := head.isMissing_statement
    rw [List.length_cons, ← Nat.add_assoc, statements]
    simp only [run_current_bind, State.current_mk, heof, Bool.false_eq_true, false_and, or_self,
      ↓reduceIte]
    rw [run_bind_of_ok (hhead _ (by omega))]
    simp only [run_advance_bind, State.next_mk, hns, hmissing, Bool.false_eq_true, ↓reduceIte]
    rw [run_bind, htail n (by omega)]
    cases (statements n false).run ⟨rest, []⟩ <;> rfl
  | _ => cases hp

end Parse

end TreeWalk
