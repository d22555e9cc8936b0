import TreeWalk.Proofs.Canonical
import TreeWalk.Proofs.Parse.Join
import TreeWalk.Proofs.Spacing

namespace TreeWalk

namespace Token

def IsWritten (t : Token) : Prop := ∃ text rest, Writes text rest t

namespace IsWritten

variable {t : Token} (h : t.IsWritten)
include h

theorem admits : t.kind.Admits t.literal := by
  obtain ⟨text, rest, h⟩ := h
  exact h.admits

theorem eq_token (hk : t.kind.isFixed) : t = t.kind.token := by
  obtain ⟨text, rest, h⟩ := h
  cases h with
  | keyword | sign => rfl
  | _ => cases hk

theorem eq_of_kind {k : Kind} (hk : t.kind = k) (hfixed : k.isFixed) : t = k.token := by
  subst hk
  exact eq_token h hfixed

theorem isName (hk : t.kind = .ident) : IsName t.literal := by
  have hadmits := h.admits
  rw [hk] at hadmits
  obtain ⟨ne, letters, free⟩ := hadmits
  exact ⟨ne, letters, fun k hmem => Ne.symm (free k hmem)⟩

theorem digits (hk : t.kind = .int) : t.literal ≠ "" ∧ ∀ c ∈ t.literal.toList, isDigit c := by
  have hadmits := h.admits
  rwa [hk] at hadmits

theorem noQuote (hk : t.kind = .string) : ∀ c ∈ t.literal.toList, c ≠ '"' := by
  have hadmits := h.admits
  rw [hk] at hadmits
  simpa [Kind.Admits, isQuote] using hadmits

end IsWritten

theorem isWritten_ofText (source : String) : ∀ t ∈ ofText source, t.IsWritten := by
  obtain ⟨g, htext, hlawful⟩ := Segmentation.exists_lawful source.toList
  rw [ofText, ← htext, hlawful.tokenize_text]
  refine List.forall_mem_map.mpr fun s hs => ?_
  exact ⟨s.text, Segmentation.LawfulBefore.exists_writes hlawful s hs⟩

end Token

def Phrase.Canonical : Phrase → Prop
  | .program tree => TreeWalk.Canonical .program tree
  | .statements trees => ∀ tree ∈ trees, TreeWalk.Canonical .statement tree
  | .statement tree => TreeWalk.Canonical .statement tree
  | .block tree => TreeWalk.Canonical .block tree
  | .expression _ tree => TreeWalk.Canonical .expression tree
  | .items _ trees | .moreItems _ trees => ∀ tree ∈ trees, TreeWalk.Canonical .expression tree
  | .parameters names | .moreParameters names =>
    ∃ ws : List String, (∀ w ∈ ws, IsName w) ∧ names = ws.map .named
  | .pairs trees => (∀ pair ∈ trees, TreeWalk.Canonical .expression pair.1) ∧
      ∀ pair ∈ trees, TreeWalk.Canonical .expression pair.2

/-- A first name goes in front of the others. -/
theorem Phrase.Canonical.cons_name {t : Token} {ps : List Node} (ht : t.IsWritten)
    (hk : t.kind = .ident) (h : (Phrase.moreParameters ps).Canonical) :
    (Phrase.moreParameters (.ident t t.literal :: ps)).Canonical := by
  obtain ⟨ws, hws, rfl⟩ := h
  obtain ⟨k, literal⟩ := t
  cases hk
  exact ⟨literal :: ws, List.forall_mem_cons.mpr ⟨ht.isName rfl, hws⟩, rfl⟩

/-- Where the tokens are written, reading some of them shows `P` and leaves the others. -/
def Shows (P : Prop) (ts rest : List Token) : Prop :=
  (∀ t ∈ ts, t.IsWritten) → P ∧ ∀ t ∈ rest, t.IsWritten

namespace Shows

section

variable {P Q : Prop} {t : Token} {ts ms rest : List Token}

theorem token : Shows t.IsWritten (t :: rest) rest := List.forall_mem_cons.mp

theorem andThen (h : Shows P ts ms) (h' : Shows Q ms rest) : Shows (P ∧ Q) ts rest := by
  intro hts
  obtain ⟨hP, hms⟩ := h hts
  obtain ⟨hQ, hrest⟩ := h' hms
  exact ⟨⟨hP, hQ⟩, hrest⟩

theorem imp (h : Shows P ts rest) (hPQ : P → Q) : Shows Q ts rest :=
  fun hts => (h hts).imp_left hPQ

theorem behind (h : Shows P ts rest) : Shows P (t :: ts) rest :=
  (token.andThen h).imp And.right

theorem closed (h : Shows P ts (t :: rest)) : Shows P ts rest :=
  (h.andThen token).imp And.left

theorem ended (h : Shows P ts ms) (ends : Ends ms rest) : Shows P ts rest := by
  intro hts
  obtain ⟨hP, hms⟩ := h hts
  exact ⟨hP, fun t ht => hms t (ends.suffix.subset ht)⟩

theorem cons {form : Form} {e : Node} {es : List Node} (h : Shows (Canonical form e) ts ms)
    (h' : Shows (∀ e ∈ es, Canonical form e) ms rest) :
    Shows (∀ e' ∈ e :: es, Canonical form e') ts rest :=
  (h.andThen h').imp List.forall_mem_cons.mpr

end

section

variable {e a b : Node} {es : List Node} {entries : List (Node × Node)} {n : Int}
  {t word sign opening closing op colon other : Token} {ts ms ns rest : List Token}

theorem letStmt (hword : word.kind = .letWord) (ht : t.kind = .ident)
    (h : Shows (Canonical .expression e) ts ms) (ends : Ends ms rest) :
    Shows (Canonical .statement (.letStmt word (.ident t t.literal) e))
      (word :: t :: sign :: ts) rest := by
  refine (token.andThen (token.andThen (h.ended ends).behind)).imp ?_
  rintro ⟨hw, hname, hvalue⟩
  obtain ⟨k, literal⟩ := t
  cases ht
  rw [hw.eq_of_kind hword rfl]
  exact .letStmt (hname.isName rfl) hvalue

theorem returnStmt (hword : word.kind = .returnWord)
    (h : Shows (Canonical .expression e) ts ms) (ends : Ends ms rest) :
    Shows (Canonical .statement (.returnStmt word e)) (word :: ts) rest := by
  refine (token.andThen (h.ended ends)).imp ?_
  rintro ⟨hw, hvalue⟩
  rw [hw.eq_of_kind hword rfl]
  exact .returnStmt hvalue

theorem block (hopening : opening.kind = .lbrace)
    (h : Shows (∀ e ∈ es, Canonical .statement e) ts rest) :
    Shows (Canonical .block (.block opening es)) (opening :: ts) rest := by
  refine (token.andThen h).imp ?_
  rintro ⟨ho, hbody⟩
  rw [ho.eq_of_kind hopening rfl]
  exact .block hbody

theorem ident (ht : t.kind = .ident) :
    Shows (Canonical .expression (.ident t t.literal)) (t :: rest) rest := by
  refine token.imp fun hwritten => ?_
  obtain ⟨k, literal⟩ := t
  cases ht
  exact .ident (hwritten.isName rfl)

theorem int (ht : Denotes t n) :
    Shows (Canonical .expression (.intLit t n)) (t :: rest) rest := by
  refine token.imp fun hwritten => ?_
  obtain ⟨hk, hlength, rfl, hle⟩ := ht
  obtain ⟨hne, hdigits⟩ := hwritten.digits hk
  obtain ⟨k, literal⟩ := t
  cases hk
  exact .int ⟨hne, hdigits, hlength, hle⟩

theorem str (ht : t.kind = .string) :
    Shows (Canonical .expression (.strLit t t.literal)) (t :: rest) rest := by
  refine token.imp fun hwritten => ?_
  obtain ⟨k, literal⟩ := t
  cases ht
  exact .str (hwritten.noQuote rfl)

theorem unary (hop : op.kind.isUnary) (h : Shows (Canonical .expression e) ts rest) :
    Shows (Canonical .expression (.unary op op.literal e)) (op :: ts) rest := by
  refine (token.andThen h).imp ?_
  rintro ⟨ho, hright⟩
  rw [ho.eq_token (Kind.isFixed_of_isUnary hop)]
  exact .unary hop hright

theorem binary (hop : op.kind.isBinary) (h : Shows (Canonical .expression a) ts (op :: ms))
    (h' : Shows (Canonical .expression b) ms rest) :
    Shows (Canonical .expression (.binary op op.literal a b)) ts rest := by
  refine (h.andThen (token.andThen h')).imp ?_
  rintro ⟨hleft, ho, hright⟩
  rw [ho.eq_token (Kind.isFixed_of_isBinary hop)]
  exact .binary hop hleft hright

theorem call (hopening : opening.kind = .lparen)
    (h : Shows (Canonical .expression e) ts (opening :: ms))
    (h' : Shows (∀ e ∈ es, Canonical .expression e) ms rest) :
    Shows (Canonical .expression (.call opening e es)) ts rest := by
  refine (h.andThen (token.andThen h')).imp ?_
  rintro ⟨hfunction, ho, harguments⟩
  rw [ho.eq_of_kind hopening rfl]
  exact .call hfunction harguments

theorem index (hopening : opening.kind = .lbracket)
    (h : Shows (Canonical .expression a) ts (opening :: ms))
    (h' : Shows (Canonical .expression b) ms (closing :: rest)) :
    Shows (Canonical .expression (.index opening a b)) ts rest := by
  refine (h.andThen (token.andThen h'.closed)).imp ?_
  rintro ⟨hleft, ho, hposition⟩
  rw [ho.eq_of_kind hopening rfl]
  exact .index hleft hposition

theorem ifThen (hword : word.kind = .ifWord)
    (h : Shows (Canonical .expression e) ts (closing :: ms))
    (h' : Shows (Canonical .block a) ms rest) :
    Shows (Canonical .expression (.ifExpr word e a .missing)) (word :: opening :: ts) rest := by
  refine (token.andThen (h.closed.andThen h').behind).imp ?_
  rintro ⟨hw, hcondition, hconsequence⟩
  rw [hw.eq_of_kind hword rfl]
  exact .ifThen hcondition hconsequence

theorem ifElse (hword : word.kind = .ifWord)
    (h : Shows (Canonical .expression e) ts (closing :: ms))
    (h' : Shows (Canonical .block a) ms (other :: ns)) (h'' : Shows (Canonical .block b) ns rest) :
    Shows (Canonical .expression (.ifExpr word e a b)) (word :: opening :: ts) rest := by
  refine (token.andThen (h.closed.andThen (h'.closed.andThen h'')).behind).imp ?_
  rintro ⟨hw, hcondition, hconsequence, halternative⟩
  rw [hw.eq_of_kind hword rfl]
  exact .ifElse hcondition hconsequence halternative

theorem function (hword : word.kind = .fnWord) (h : Shows (Phrase.parameters es).Canonical ts ms)
    (h' : Shows (Canonical .block b) ms rest) :
    Shows (Canonical .expression (.fnLit word es b)) (word :: opening :: ts) rest := by
  refine (token.andThen (h.andThen h').behind).imp ?_
  rintro ⟨hw, ⟨ws, hws, rfl⟩, hbody⟩
  rw [hw.eq_of_kind hword rfl]
  exact .function hws hbody

theorem array (hopening : opening.kind = .lbracket)
    (h : Shows (∀ e ∈ es, Canonical .expression e) ts rest) :
    Shows (Canonical .expression (.arrayLit opening es)) (opening :: ts) rest := by
  refine (token.andThen h).imp ?_
  rintro ⟨ho, helements⟩
  rw [ho.eq_of_kind hopening rfl]
  exact .array helements

theorem hash (hopening : opening.kind = .lbrace)
    (h : Shows (Phrase.pairs entries).Canonical ts rest) :
    Shows (Canonical .expression (.hashLit opening entries)) (opening :: ts) rest := by
  refine (token.andThen h).imp ?_
  rintro ⟨ho, hkeys, hvalues⟩
  rw [ho.eq_of_kind hopening rfl]
  exact .hash hkeys hvalues

theorem parameters (ht : t.kind = .ident)
    (h : Shows (Phrase.moreParameters es).Canonical ts rest) :
    Shows (Phrase.moreParameters (.ident t t.literal :: es)).Canonical (t :: ts) rest :=
  (token.andThen h).imp fun ⟨hwritten, hmore⟩ => hmore.cons_name hwritten ht

theorem pairs (h : Shows (Canonical .expression a) ts (colon :: ms))
    (h' : Shows (Canonical .expression b) ms ns)
    (h'' : Shows (Phrase.pairs entries).Canonical ns rest) :
    Shows (Phrase.pairs ((a, b) :: entries)).Canonical ts rest := by
  refine (h.closed.andThen (h'.andThen h'')).imp ?_
  rintro ⟨hkey, hvalue, hkeys, hvalues⟩
  exact ⟨List.forall_mem_cons.mpr ⟨hkey, hkeys⟩, List.forall_mem_cons.mpr ⟨hvalue, hvalues⟩⟩

end

end Shows

theorem Reads.canonical {p : Phrase} {ts rest : List Token} (h : Reads p ts rest) :
    Shows p.Canonical ts rest := by
  induction h with
  | program _ ih => exact ih.imp .program
  | nil => exact fun hts => ⟨List.forall_mem_nil _, hts⟩
  | cons _ _ ih ih' => exact ih.cons ih'
  | letStmt hword hname _ _ ends ih => exact .letStmt hword hname ih ends
  | returnStmt hword _ ends ih => exact .returnStmt hword ih ends
  | exprStmt _ ends ih => exact (ih.ended ends).imp (.exprStmt _)
  | block hopening _ _ ih => exact .block hopening ih.closed
  | cutBlock hopening _ ih => exact .block hopening ih
  | ident hk => exact .ident hk
  | int hn => exact .int hn
  | str hk => exact .str hk
  | true hk | false hk =>
    refine Shows.token.imp fun hwritten => ?_
    rw [hwritten.eq_of_kind hk rfl]
    constructor
  | group _ _ _ ih => exact ih.closed.behind
  | unary hop _ _ ih => exact .unary hop ih
  | binary hop _ _ _ _ ih ih' => exact .binary hop ih ih'
  | call hopening _ _ _ ih ih' => exact .call hopening ih ih'
  | index hopening _ _ _ _ ih ih' => exact .index hopening ih ih'
  | ifThen hword _ _ _ _ _ ih ih' => exact .ifThen hword ih ih'
  | ifElse hword _ _ _ _ _ _ ih ih' ih'' => exact .ifElse hword ih ih' ih''
  | function hword _ _ _ ih ih' => exact .function hword ih ih'
  | array hopening _ ih => exact .array hopening ih
  | hash hopening _ ih => exact .hash hopening ih
  | noItems | lastItem => exact Shows.token.imp fun _ => List.forall_mem_nil _
  | items _ _ ih ih' => exact ih.cons ih'
  | nextItem _ _ _ ih ih' => exact (ih.cons ih').behind
  | noParameters | lastParameter =>
    exact Shows.token.imp fun _ => ⟨[], List.forall_mem_nil _, rfl⟩
  | parameters hname _ ih => exact .parameters hname ih
  | nextParameter _ hname _ ih => exact (Shows.parameters hname ih).behind
  | noPairs => exact Shows.token.imp fun _ => ⟨List.forall_mem_nil _, List.forall_mem_nil _⟩
  | lastPair _ _ _ _ ih ih' =>
    refine ih.pairs ih' (Shows.token.imp fun _ => ?_)
    exact ⟨List.forall_mem_nil _, List.forall_mem_nil _⟩
  | nextPair _ _ _ _ _ ih ih' ih'' => exact ih.pairs ih'.closed ih''

/-- The tree of a source without complaints is canonical. -/
theorem canonical_of_parse {source : String} {tree : Node} (h : parse source = .ok (tree, [])) :
    Canonical .program tree :=
  ((reads_of_parseTokens h (proper_tokenize _)).canonical (Token.isWritten_ofText source)).1

end TreeWalk
