import TreeWalk.Proofs.Lexing
import TreeWalk.Proofs.Parse.Run

namespace TreeWalk

namespace Proper

variable {ts ts' : List Token}

theorem of_suffix (h : Proper ts) (hs : ts' <:+ ts) : Proper ts' :=
  fun t ht => h t (hs.subset ht)

theorem tail (h : Proper ts) : Proper ts.tail := h.of_suffix (List.tail_suffix ts)

theorem eq_nil (h : Proper ts) (hf : (front ts).kind = .eof) : ts = [] := by
  cases ts with
  | nil => rfl
  | cons t ts => exact absurd hf (h t List.mem_cons_self)

end Proper

namespace Parse

theorem eq_front_cons (ts : List Token) {k : Kind} (h : (front ts).kind = k) (hk : k ≠ .eof) :
    ts = front ts :: ts.tail := by
  cases ts with
  | nil => exact absurd h.symm hk
  | cons t ts => rfl

/-- An expression whose operator in the open is `top` can stand to the left of the token. -/
def Fits (t : Token) (top : Option Level) : Prop :=
  min t.kind.level.rank Level.call.rank ≤ topRank top

theorem fits_none (t : Token) : Fits t none := by
  simp only [Fits, topRank, Level.rank]
  omega

/-- An expression whose operator in the open is `top` can be read where the level is in force. Unary
operators may follow one another, though none holds tighter than itself. -/
def Above (level : Level) (top : Option Level) : Prop :=
  min (level.rank + 1) Level.unary.rank ≤ topRank top

/-- What runs without complaints read, given so many steps. -/
structure Sound (n : Nat) : Prop where
  statements : ∀ {inBlock s ss s'}, (statements n inBlock).run s = .ok (ss, s') →
    s'.complaints = [] → Proper s.tokens → Reads (.statements ss) s.tokens s'.tokens ∧
      (s'.tokens = [] ∨ inBlock = true ∧ s'.current.kind = .rbrace)
  statement : ∀ {s e s'}, (statement n).run s = .ok (e, s') → s'.complaints = [] →
    Proper s.tokens → Reads (.statement e) s.tokens s'.tokens.tail
  block : ∀ {s e s'}, (block n).run s = .ok (e, s') → s'.complaints = [] → Proper s.tokens →
    s.current.kind = .lbrace → Reads (.block e) s.tokens s'.tokens.tail
  expression : ∀ {level s e s'}, (expression n level).run s = .ok (e, s') → s'.complaints = [] →
    Proper s.tokens → ∃ top, Reads (.expression top e) s.tokens s'.tokens.tail ∧
      Above level top ∧ s'.ahead.kind.level.rank ≤ level.rank
  operand : ∀ {s o s'}, (operand n).run s = .ok (o, s') → s'.complaints = [] →
    Proper s.tokens → ∃ e top, o = some e ∧ Reads (.expression top e) s.tokens s'.tokens.tail ∧
      Level.unary.rank ≤ topRank top ∧ Fits s'.ahead top
  extend : ∀ {level left s e s' top ts}, (extend n level left).run s = .ok (e, s') →
    s'.complaints = [] → Proper s.tokens → Reads (.expression top left) ts s.tokens.tail →
    Above level top → Fits s.ahead top →
    ∃ top', Reads (.expression top' e) ts s'.tokens.tail ∧ Above level top' ∧
      s'.ahead.kind.level.rank ≤ level.rank
  extension : ∀ {left s e s' top ts}, (extension n s.current left).run s = .ok (e, s') →
    s'.complaints = [] → Proper s.tokens → Reads (.expression top left) ts s.tokens →
    s.current.kind.level ≠ .lowest → Fits s.current top →
    Reads (.expression (some s.current.kind.level) e) ts s'.tokens.tail ∧
      Fits s'.ahead (some s.current.kind.level)
  conditional : ∀ {s e s'}, (conditional n).run s = .ok (e, s') → s'.complaints = [] →
    Proper s.tokens → s.current.kind = .ifWord → Reads (.expression none e) s.tokens s'.tokens.tail
  function : ∀ {s e s'}, (function n).run s = .ok (e, s') → s'.complaints = [] →
    Proper s.tokens → s.current.kind = .fnWord → Reads (.expression none e) s.tokens s'.tokens.tail
  expressions : ∀ {close s o s'}, (expressions n close).run s = .ok (o, s') → close ≠ .eof →
    s'.complaints = [] → Proper s.tokens →
    ∃ es, o = some es ∧ Reads (.items close es) s.tokens.tail s'.tokens.tail
  moreExpressions : ∀ {close s o s'}, (moreExpressions n close).run s = .ok (o, s') →
    close ≠ .eof → s'.complaints = [] → Proper s.tokens →
    ∃ es, o = some es ∧ Reads (.moreItems close es) s.tokens.tail s'.tokens.tail
  pairs : ∀ {s o s'}, (pairs n).run s = .ok (o, s') → s'.complaints = [] → Proper s.tokens →
    ∃ ps, o = some ps ∧ Reads (.pairs ps) s.tokens.tail s'.tokens.tail

theorem sound_zero : Sound 0 where
  statements h := nomatch h
  statement h := nomatch h
  block h := nomatch h
  expression h := nomatch h
  operand h := nomatch h
  extend h := nomatch h
  extension h := nomatch h
  conditional h := nomatch h
  function h := nomatch h
  expressions h := nomatch h
  moreExpressions h := nomatch h
  pairs h := nomatch h

theorem moreParameters_sound {n : Nat} {s s' : State} {o : Option (List Node)}
    (h : (moreParameters n).run s = .ok (o, s')) (hc : s'.complaints = []) :
    ∃ ps, o = some ps ∧ Reads (.moreParameters ps) s.tokens.tail s'.tokens.tail := by
  induction n generalizing s o with
  | zero => cases h
  | succ n ih =>
    simp only [moreParameters, run_ahead_bind, run_ite, run_advance_bind, run_expect_bind] at h
    split at h
    · next hcomma =>
      split at h
      · next hname =>
        simp only [run_name_bind, ↓reduceIte] at h
        obtain ⟨more, m, hmore, h⟩ := exists_of_run_bind h
        cases h
        obtain ⟨ps, rfl, hps⟩ := ih hmore
        refine ⟨_, rfl, ?_⟩
        rw [eq_front_cons s.tokens.tail hcomma (by decide),
          eq_front_cons s.tokens.tail.tail hname (by decide)]
        exact .nextParameter hcomma hname hps
      · cases h
        cases hc
    · split at h
      · next hclosing =>
        cases h
        refine ⟨_, rfl, ?_⟩
        rw [eq_front_cons s.tokens.tail hclosing (by decide)]
        exact .lastParameter hclosing
      · cases h
        cases hc

theorem parameters_sound {n : Nat} {s s' : State} {o : Option (List Node)}
    (h : (parameters n).run s = .ok (o, s')) (hc : s'.complaints = []) :
    ∃ ps, o = some ps ∧ Reads (.parameters ps) s.tokens.tail s'.tokens.tail := by
  simp only [parameters, run_ahead_bind, run_ite, run_advance_bind, run_expect_bind] at h
  split at h
  · next hclosing =>
    cases h
    refine ⟨_, rfl, ?_⟩
    rw [eq_front_cons s.tokens.tail hclosing (by decide)]
    exact .noParameters hclosing
  · split at h
    · next hname =>
      simp only [run_name_bind, ↓reduceIte] at h
      obtain ⟨more, m, hmore, h⟩ := exists_of_run_bind h
      cases h
      obtain ⟨ps, rfl, hps⟩ := moreParameters_sound hmore hc
      refine ⟨_, rfl, ?_⟩
      rw [eq_front_cons s.tokens.tail hname (by decide)]
      exact .parameters hname hps
    · cases h
      cases hc

theorem integer_sound {s s' : State} {e : Node} (h : integer.run s = .ok (e, s'))
    (hc : s'.complaints = []) (hk : s.current.kind = .int) :
    s' = s ∧ ∃ n, Denotes s.current n ∧ e = .intLit s.current n := by
  rw [run_integer] at h
  split at h
  · cases h
  · next hlength =>
    split at h
    · cases h
      cases hc
    · next hle =>
      cases h
      exact ⟨rfl, _, ⟨hk, by omega, rfl, by omega⟩, rfl⟩

theorem endStatement_sound {m s' : State} {e a : Node}
    (h : (endStatement >>= fun _ => (pure e : Parse Node)).run m = .ok (a, s'))
    (hlevel : m.ahead.kind.level.rank ≤ Level.lowest.rank) :
    a = e ∧ Ends m.tokens.tail s'.tokens.tail := by
  rw [run_endStatement_bind] at h
  split at h
  · next hk =>
    cases h
    refine ⟨rfl, ?_⟩
    rw [eq_front_cons m.tokens.tail hk (by decide)]
    exact .semicolon hk
  · next hk =>
    cases h
    exact ⟨rfl, .bare hk (Level.eq_lowest_of_rank_le hlevel)⟩

theorem pairs_closed {n : Nat} {s s' : State} {o : Option (List (Node × Node))}
    (h : (pairs n).run s = .ok (o, s')) (hk : s.ahead.kind = .rbrace) :
    o = some [] ∧ s' = s.next := by
  cases n with
  | zero => cases h
  | succ n =>
    simp only [pairs, run_ahead_bind, hk, ↓reduceIte] at h
    cases h
    exact ⟨rfl, rfl⟩

section Step

variable {n : Nat} (ih : Sound n)
include ih

theorem block_sound {s s' : State} {e : Node} (h : (block (n + 1)).run s = .ok (e, s'))
    (hc : s'.complaints = []) (hp : Proper s.tokens) (hk : s.current.kind = .lbrace) :
    Reads (.block e) s.tokens s'.tokens.tail := by
  simp only [block, run_current_bind, run_advance_bind] at h
  obtain ⟨ss, m, hss, h⟩ := exists_of_run_bind h
  cases h
  obtain ⟨hbody, hend⟩ := ih.statements hss hc hp.tail
  rw [eq_front_cons s.tokens hk (by decide)]
  rcases hend with hnil | ⟨-, hclosing⟩
  · rw [hnil] at hbody ⊢
    exact .cutBlock hk hbody
  · rw [eq_front_cons s'.tokens hclosing (by decide)] at hbody
    exact .block hk hbody hclosing

theorem value_sound {make : Node → Node} {m s' : State} {e : Node}
    (h : (expression n .lowest >>= fun v => endStatement >>= fun _ => pure (make v)).run m
      = .ok (e, s')) (hc : s'.complaints = []) (hp : Proper m.tokens) :
    ∃ top v ms, e = make v ∧ Reads (.expression top v) m.tokens ms ∧ Ends ms s'.tokens.tail := by
  obtain ⟨v, m', hv, h⟩ := exists_of_run_bind h
  have hm : m'.complaints = [] := by
    rw [run_endStatement_bind] at h
    split at h <;> cases h <;> exact hc
  obtain ⟨top, hr, -, hlevel⟩ := ih.expression hv hm hp
  obtain ⟨rfl, hend⟩ := endStatement_sound h hlevel
  exact ⟨top, v, _, rfl, hr, hend⟩

theorem statement_sound {s s' : State} {e : Node} (h : (statement (n + 1)).run s = .ok (e, s'))
    (hc : s'.complaints = []) (hp : Proper s.tokens) :
    Reads (.statement e) s.tokens s'.tokens.tail := by
  simp only [statement, run_current_bind] at h
  split at h
  · next hword =>
    simp only [run_expect_bind] at h
    split at h
    · next hname =>
      simp only [run_name_bind, run_expect_bind, ↓reduceIte] at h
      split at h
      · next hsign =>
        simp only [run_advance_bind] at h
        obtain ⟨top, v, ms, rfl, hv, hend⟩ := value_sound ih h hc hp.tail.tail.tail
        rw [eq_front_cons s.tokens hword (by decide), eq_front_cons s.tokens.tail hname (by decide),
          eq_front_cons s.tokens.tail.tail hsign (by decide)]
        exact .letStmt hword hname hsign hv hend
      · cases h
        cases hc
    · cases h
      cases hc
  · next hword =>
    simp only [run_advance_bind] at h
    obtain ⟨top, v, ms, rfl, hv, hend⟩ := value_sound ih h hc hp.tail
    rw [eq_front_cons s.tokens hword (by decide)]
    exact .returnStmt hword hv hend
  · obtain ⟨top, v, ms, rfl, hv, hend⟩ := value_sound ih h hc hp
    exact .exprStmt hv hend

theorem statements_sound {inBlock : Bool} {s s' : State} {ss : List Node}
    (h : (statements (n + 1) inBlock).run s = .ok (ss, s')) (hc : s'.complaints = [])
    (hp : Proper s.tokens) : Reads (.statements ss) s.tokens s'.tokens ∧
      (s'.tokens = [] ∨ inBlock = true ∧ s'.current.kind = .rbrace) := by
  simp only [statements, run_current_bind, run_ite] at h
  split at h
  · next hend =>
    cases h
    refine ⟨.nil, ?_⟩
    rcases hend with heof | hbrace
    · exact .inl (hp.eq_nil heof)
    · exact .inr hbrace
  · obtain ⟨e, m, he, h⟩ := exists_of_run_bind h
    simp only [run_advance_bind] at h
    obtain ⟨es, m', hes, h⟩ := exists_of_run_bind h
    have hm : m.complaints = [] := by
      cases h
      exact (keeping kept_complaints n).statements _ m.next _ _ hes hc
    have hpm : Proper m.tokens := hp.of_suffix ((keeping kept_suffix n).statement _ _ _ he)
    have hhead := ih.statement he hm hp
    rw [hhead.isMissing_statement] at h
    cases h
    obtain ⟨htail, hend⟩ := ih.statements hes hc hpm.tail
    exact ⟨.cons hhead htail, hend⟩

theorem expression_sound {level : Level} {s s' : State} {e : Node}
    (h : (expression (n + 1) level).run s = .ok (e, s')) (hc : s'.complaints = [])
    (hp : Proper s.tokens) :
    ∃ top, Reads (.expression top e) s.tokens s'.tokens.tail ∧
      Above level top ∧ s'.ahead.kind.level.rank ≤ level.rank := by
  rw [expression] at h
  obtain ⟨o, m, ho, h⟩ := exists_of_run_bind h
  cases o with
  | none =>
    cases h
    obtain ⟨_, _, hnone, _⟩ := ih.operand ho hc hp
    cases hnone
  | some left =>
    have hm := (keeping kept_complaints n).extend _ _ _ _ _ h hc
    obtain ⟨_, top, heq, hr, htop, hfits⟩ := ih.operand ho hm hp
    cases heq
    have hpm := hp.of_suffix ((keeping kept_suffix n).operand _ _ _ ho)
    exact ih.extend h hc hpm hr (Nat.le_trans (Nat.min_le_right ..) htop) hfits

theorem unary_sound {s s' : State} {o : Option Node} (hk : s.current.kind.isUnary)
    (h : (advance >>= fun _ => expression n .unary >>= fun e =>
      pure (some (Node.unary s.current s.current.literal e))).run s = .ok (o, s'))
    (hc : s'.complaints = []) (hp : Proper s.tokens) :
    ∃ e top, o = some e ∧ Reads (.expression top e) s.tokens s'.tokens.tail ∧
      Level.unary.rank ≤ topRank top ∧ Fits s'.ahead top := by
  simp only [run_advance_bind] at h
  obtain ⟨e, m, he, h⟩ := exists_of_run_bind h
  cases h
  obtain ⟨top, hr, habove, hlevel⟩ := ih.expression he hc hp.tail
  have hne : s.current.kind ≠ .eof := by
    intro heq
    rw [heq] at hk
    cases hk
  rw [eq_front_cons s.tokens rfl hne]
  exact ⟨_, some .unary, rfl, .unary hk hr habove, Nat.le_refl _,
    Nat.le_trans (Nat.min_le_left ..) hlevel⟩

theorem operand_sound {s s' : State} {o : Option Node}
    (h : (operand (n + 1)).run s = .ok (o, s')) (hc : s'.complaints = []) (hp : Proper s.tokens) :
    ∃ e top, o = some e ∧ Reads (.expression top e) s.tokens s'.tokens.tail ∧
      Level.unary.rank ≤ topRank top ∧ Fits s'.ahead top := by
  simp only [operand, run_current_bind] at h
  split at h
  · next hk =>
    cases h
    rw [eq_front_cons s.tokens hk (by decide)]
    exact ⟨_, none, rfl, .ident hk, by decide, fits_none _⟩
  · next hk =>
    obtain ⟨e, m, he, h⟩ := exists_of_run_bind h
    cases h
    obtain ⟨rfl, v, hv, rfl⟩ := integer_sound he hc hk
    rw [eq_front_cons s'.tokens hk (by decide)]
    exact ⟨_, none, rfl, .int hv, by decide, fits_none _⟩
  · next hk =>
    cases h
    rw [eq_front_cons s.tokens hk (by decide)]
    exact ⟨_, none, rfl, .str hk, by decide, fits_none _⟩
  · next hk =>
    cases h
    rw [eq_front_cons s.tokens hk (by decide)]
    exact ⟨_, none, rfl, .true hk, by decide, fits_none _⟩
  · next hk =>
    cases h
    rw [eq_front_cons s.tokens hk (by decide)]
    exact ⟨_, none, rfl, .false hk, by decide, fits_none _⟩
  · next hk => exact unary_sound ih (by rw [hk]; rfl) h hc hp
  · next hk => exact unary_sound ih (by rw [hk]; rfl) h hc hp
  · next hk =>
    simp only [run_advance_bind] at h
    obtain ⟨e, m, he, h⟩ := exists_of_run_bind h
    simp only [run_expect_bind] at h
    split at h
    · next hclosing =>
      cases h
      obtain ⟨top, hr, -⟩ := ih.expression he hc hp.tail
      rw [eq_front_cons m.tokens.tail hclosing (by decide)] at hr
      rw [eq_front_cons s.tokens hk (by decide)]
      exact ⟨_, none, rfl, .group hk hr hclosing, by decide, fits_none _⟩
    · cases h
      cases hc
  · next hk =>
    obtain ⟨e, m, he, h⟩ := exists_of_run_bind h
    cases h
    exact ⟨e, none, rfl, ih.conditional he hc hp hk, by decide, fits_none _⟩
  · next hk =>
    obtain ⟨e, m, he, h⟩ := exists_of_run_bind h
    cases h
    exact ⟨e, none, rfl, ih.function he hc hp hk, by decide, fits_none _⟩
  · next hk =>
    obtain ⟨o', m, ho', h⟩ := exists_of_run_bind h
    cases h
    obtain ⟨es, rfl, hes⟩ := ih.expressions ho' (by decide) hc hp
    rw [eq_front_cons s.tokens hk (by decide)]
    exact ⟨_, none, rfl, .array hk hes, by decide, fits_none _⟩
  · next hk =>
    obtain ⟨o', m, ho', h⟩ := exists_of_run_bind h
    cases h
    obtain ⟨ps, rfl, hps⟩ := ih.pairs ho' hc hp
    rw [eq_front_cons s.tokens hk (by decide)]
    exact ⟨_, none, rfl, .hash hk hps, by decide, fits_none _⟩
  · cases h
    cases hc

theorem extend_sound {level : Level} {left : Node} {s s' : State} {e : Node} {top : Option Level}
    {ts : List Token} (h : (extend (n + 1) level left).run s = .ok (e, s'))
    (hc : s'.complaints = []) (hp : Proper s.tokens)
    (hleft : Reads (.expression top left) ts s.tokens.tail) (hlevel : Above level top)
    (hfits : Fits s.ahead top) :
    ∃ top', Reads (.expression top' e) ts s'.tokens.tail ∧ Above level top' ∧
      s'.ahead.kind.level.rank ≤ level.rank := by
  simp only [extend, run_ahead_bind, run_ite] at h
  split at h
  · next hlt =>
    simp only [run_advance_bind] at h
    obtain ⟨e', m, he', h⟩ := exists_of_run_bind h
    have hm := (keeping kept_complaints n).extend _ _ _ _ _ h hc
    have hne : s.next.current.kind.level ≠ .lowest := Level.ne_lowest_of_rank_lt hlt
    obtain ⟨hr, hfits'⟩ := ih.extension (s := s.next) he' hm hp.tail hleft hne hfits
    have hpm := hp.tail.of_suffix ((keeping kept_suffix n).extension _ _ _ _ _ he')
    exact ih.extend h hc hpm hr (Nat.le_trans (Nat.min_le_left ..) hlt) hfits'
  · next hge =>
    cases h
    exact ⟨top, hleft, hlevel, Nat.le_of_not_lt hge⟩

theorem extension_sound {left : Node} {s s' : State} {e : Node} {top : Option Level}
    {ts : List Token} (h : (extension (n + 1) s.current left).run s = .ok (e, s'))
    (hc : s'.complaints = []) (hp : Proper s.tokens)
    (hleft : Reads (.expression top left) ts s.tokens)
    (hlevel : s.current.kind.level ≠ .lowest) (hfits : Fits s.current top) :
    Reads (.expression (some s.current.kind.level) e) ts s'.tokens.tail ∧
      Fits s'.ahead (some s.current.kind.level) := by
  rw [extension] at h
  split at h
  · next hk =>
    obtain ⟨o, m, ho, h⟩ := exists_of_run_bind h
    cases h
    obtain ⟨args, rfl, hargs⟩ := ih.expressions ho (by decide) hc hp
    rw [eq_front_cons s.tokens hk (by decide)] at hleft
    simp only [Fits, hk, Kind.level] at hfits ⊢
    exact ⟨.call hk hleft hargs hfits, Nat.min_le_right ..⟩
  · next hk =>
    simp only [run_advance_bind] at h
    obtain ⟨i, m, hi, h⟩ := exists_of_run_bind h
    simp only [run_expect_bind] at h
    split at h
    · next hclosing =>
      cases h
      obtain ⟨p, hposition, -⟩ := ih.expression hi hc hp.tail
      rw [eq_front_cons m.tokens.tail hclosing (by decide)] at hposition
      rw [eq_front_cons s.tokens hk (by decide)] at hleft
      simp only [Fits, hk, Kind.level] at hfits ⊢
      exact ⟨.index hk hleft hposition hclosing hfits,
        Nat.le_trans (Nat.min_le_right ..) (by decide)⟩
    · cases h
      cases hc
  · next hparen hbracket =>
    simp only [run_advance_bind] at h
    obtain ⟨b, m, hb, h⟩ := exists_of_run_bind h
    cases h
    obtain ⟨r, hright, habove, hrank⟩ := ih.expression hb hc hp.tail
    have hop := Kind.isBinary_of_level hlevel hparen hbracket
    have hlt := Kind.rank_lt_of_isBinary hop
    have hcall : Level.unary.rank < Level.call.rank := by decide
    have hne : s.current.kind ≠ .eof := by
      intro heq
      rw [heq] at hop
      cases hop
    simp only [Fits, Above] at hfits habove
    rw [eq_front_cons s.tokens rfl hne] at hleft
    refine ⟨.binary hop hleft hright ?_ ?_, Nat.le_trans (Nat.min_le_left ..) hrank⟩
    · omega
    · omega

theorem expressions_sound {close : Kind} {s s' : State} {o : Option (List Node)}
    (h : (expressions (n + 1) close).run s = .ok (o, s')) (hclose : close ≠ .eof)
    (hc : s'.complaints = []) (hp : Proper s.tokens) :
    ∃ es, o = some es ∧ Reads (.items close es) s.tokens.tail s'.tokens.tail := by
  simp only [expressions, run_ahead_bind, run_ite, run_advance_bind] at h
  split at h
  · next hk =>
    cases h
    refine ⟨[], rfl, ?_⟩
    rw [eq_front_cons s.tokens.tail hk hclose]
    exact .noItems hk
  · obtain ⟨e, m, he, h⟩ := exists_of_run_bind h
    obtain ⟨o', m', ho', h⟩ := exists_of_run_bind h
    cases h
    have hm := (keeping kept_complaints n).moreExpressions _ _ _ _ ho' hc
    have hpm := hp.tail.of_suffix ((keeping kept_suffix n).expression _ _ _ _ he)
    obtain ⟨top, hr, -⟩ := ih.expression he hm hp.tail
    obtain ⟨es, rfl, hes⟩ := ih.moreExpressions ho' hclose hc hpm
    exact ⟨e :: es, rfl, .items hr hes⟩

theorem moreExpressions_sound {close : Kind} {s s' : State} {o : Option (List Node)}
    (h : (moreExpressions (n + 1) close).run s = .ok (o, s')) (hclose : close ≠ .eof)
    (hc : s'.complaints = []) (hp : Proper s.tokens) :
    ∃ es, o = some es ∧ Reads (.moreItems close es) s.tokens.tail s'.tokens.tail := by
  simp only [moreExpressions, run_ahead_bind, run_ite, run_advance_bind, run_expect_bind] at h
  split at h
  · next hcomma =>
    obtain ⟨e, m, he, h⟩ := exists_of_run_bind h
    obtain ⟨o', m', ho', h⟩ := exists_of_run_bind h
    cases h
    have hm := (keeping kept_complaints n).moreExpressions _ _ _ _ ho' hc
    have hpm := hp.tail.tail.of_suffix ((keeping kept_suffix n).expression _ _ _ _ he)
    obtain ⟨top, hr, -⟩ := ih.expression he hm hp.tail.tail
    obtain ⟨es, rfl, hes⟩ := ih.moreExpressions ho' hclose hc hpm
    rw [eq_front_cons s.tokens.tail hcomma (by decide)]
    exact ⟨e :: es, rfl, .nextItem hcomma hr hes⟩
  · split at h
    · next hk =>
      cases h
      refine ⟨[], rfl, ?_⟩
      rw [eq_front_cons s.tokens.tail hk hclose]
      exact .lastItem hk
    · cases h
      cases hc

theorem alternative_sound {make : Node → Node} {s s' : State} {e : Node}
    (h : (ahead >>= fun t =>
      if t.kind = .elseWord then advance >>= fun _ => expect .lbrace >>= fun found =>
        if found = true then block n >>= fun b => pure (make b) else pure .missing
      else pure (make .missing)).run s = .ok (e, s'))
    (hc : s'.complaints = []) (hp : Proper s.tokens) :
    s.complaints = [] ∧
      (s.ahead.kind ≠ .elseWord ∧ e = make .missing ∧ s' = s ∨
        s.ahead.kind = .elseWord ∧ ∃ b, e = make b ∧
          Reads (.block b) s.tokens.tail.tail s'.tokens.tail) := by
  simp only [run_ahead_bind, run_ite, run_advance_bind, run_expect_bind] at h
  split at h
  · next hother =>
    split at h
    · next hbrace =>
      obtain ⟨b, m, hb, h⟩ := exists_of_run_bind h
      cases h
      have hs := (keeping kept_complaints n).block s.next.next _ _ hb hc
      exact ⟨hs, .inr ⟨hother, b, rfl, ih.block hb hc hp.tail.tail hbrace⟩⟩
    · cases h
      cases hc
  · next hother =>
    cases h
    exact ⟨hc, .inl ⟨hother, rfl, rfl⟩⟩

theorem conditional_sound {s s' : State} {e : Node}
    (h : (conditional (n + 1)).run s = .ok (e, s')) (hc : s'.complaints = [])
    (hp : Proper s.tokens) (hword : s.current.kind = .ifWord) :
    Reads (.expression none e) s.tokens s'.tokens.tail := by
  simp only [conditional, run_current_bind, run_expect_bind] at h
  split at h
  · next hopening =>
    simp only [run_advance_bind, ↓reduceIte] at h
    obtain ⟨c, m, hcond, h⟩ := exists_of_run_bind h
    simp only [run_expect_bind] at h
    split at h
    · next hclosing =>
      simp only [run_expect_bind, ↓reduceIte] at h
      split at h
      · next hbrace =>
        have hpm := hp.tail.tail.of_suffix ((keeping kept_suffix n).expression _ _ _ _ hcond)
        obtain ⟨a, m', ha, h⟩ := exists_of_run_bind h
        have hpm' := hpm.tail.tail.of_suffix ((keeping kept_suffix n).block _ _ _ ha)
        obtain ⟨hm', hrest⟩ := alternative_sound ih h hc hpm'
        have hm := (keeping kept_complaints n).block m.next.next _ _ ha hm'
        obtain ⟨top, hr, -⟩ := ih.expression hcond hm hp.tail.tail
        have hthen := ih.block ha hm' hpm.tail.tail hbrace
        rw [eq_front_cons m.tokens.tail hclosing (by decide)] at hr
        rw [eq_front_cons s.tokens hword (by decide),
          eq_front_cons s.tokens.tail hopening (by decide)]
        rcases hrest with ⟨hother, rfl, rfl⟩ | ⟨hother, b, rfl, helse⟩
        · exact .ifThen hword hopening hr hclosing hthen hother
        · rw [eq_front_cons m'.tokens.tail hother (by decide)] at hthen
          exact .ifElse hword hopening hr hclosing hthen hother helse
      · cases h
        cases hc
    · cases h
      cases hc
  · cases h
    cases hc

theorem function_sound {s s' : State} {e : Node}
    (h : (function (n + 1)).run s = .ok (e, s')) (hc : s'.complaints = [])
    (hp : Proper s.tokens) (hword : s.current.kind = .fnWord) :
    Reads (.expression none e) s.tokens s'.tokens.tail := by
  simp only [function, run_current_bind, run_expect_bind] at h
  split at h
  · next hopening =>
    obtain ⟨o, m, ho, h⟩ := exists_of_run_bind h
    cases o with
    | none =>
      cases h
      obtain ⟨_, heq, _⟩ := parameters_sound ho hc
      cases heq
    | some ps =>
      simp only [run_expect_bind] at h
      split at h
      · next hbrace =>
        obtain ⟨b, m', hb, h⟩ := exists_of_run_bind h
        cases h
        have hm := (keeping kept_complaints n).block m.next _ _ hb hc
        have hpm := hp.tail.of_suffix (keeps_parameters kept_suffix n _ _ _ ho)
        obtain ⟨_, heq, hps⟩ := parameters_sound ho hm
        cases heq
        have hbody := ih.block hb hc hpm.tail hbrace
        rw [eq_front_cons s.tokens hword (by decide),
          eq_front_cons s.tokens.tail hopening (by decide)]
        exact .function hword hopening hps hbody
      · cases h
        cases hc
  · cases h
    cases hc

theorem pairs_sound {s s' : State} {o : Option (List (Node × Node))}
    (h : (pairs (n + 1)).run s = .ok (o, s')) (hc : s'.complaints = []) (hp : Proper s.tokens) :
    ∃ ps, o = some ps ∧ Reads (.pairs ps) s.tokens.tail s'.tokens.tail := by
  simp only [pairs, run_ahead_bind, run_ite, run_advance_bind] at h
  split at h
  · next hclosing =>
    cases h
    refine ⟨[], rfl, ?_⟩
    rw [eq_front_cons s.tokens.tail hclosing (by decide)]
    exact .noPairs hclosing
  · obtain ⟨key, m, hkey, h⟩ := exists_of_run_bind h
    have hpm := hp.tail.of_suffix ((keeping kept_suffix n).expression _ _ _ _ hkey)
    simp only [run_expect_bind] at h
    split at h
    · next hcolon =>
      simp only [run_advance_bind, ↓reduceIte] at h
      obtain ⟨value, m', hvalue, h⟩ := exists_of_run_bind h
      have hpm' := hpm.tail.tail.of_suffix ((keeping kept_suffix n).expression _ _ _ _ hvalue)
      simp only [run_ahead_bind, run_ite, run_expect_bind] at h
      split at h
      · next hclosing =>
        obtain ⟨o', m'', ho', h⟩ := exists_of_run_bind h
        cases h
        have hm' := (keeping kept_complaints n).pairs _ _ _ ho' hc
        have hm := (keeping kept_complaints n).expression _ m.next.next _ _ hvalue hm'
        obtain ⟨k, hk, -⟩ := ih.expression hkey hm hp.tail
        obtain ⟨v, hv, -⟩ := ih.expression hvalue hm' hpm.tail.tail
        obtain ⟨rfl, rfl⟩ := pairs_closed ho' hclosing
        rw [eq_front_cons m.tokens.tail hcolon (by decide)] at hk
        rw [eq_front_cons m'.tokens.tail hclosing (by decide)] at hv
        exact ⟨_, rfl, .lastPair hk hcolon hv hclosing⟩
      · split at h
        · next hcomma =>
          obtain ⟨o', m'', ho', h⟩ := exists_of_run_bind h
          cases h
          have hm' := (keeping kept_complaints n).pairs m'.next _ _ ho' hc
          have hm := (keeping kept_complaints n).expression _ m.next.next _ _ hvalue hm'
          obtain ⟨k, hk, -⟩ := ih.expression hkey hm hp.tail
          obtain ⟨v, hv, -⟩ := ih.expression hvalue hm' hpm.tail.tail
          obtain ⟨ps, rfl, hps⟩ := ih.pairs ho' hc hpm'.tail
          rw [eq_front_cons m.tokens.tail hcolon (by decide)] at hk
          rw [eq_front_cons m'.tokens.tail hcomma (by decide)] at hv
          exact ⟨_, rfl, .nextPair hk hcolon hv hcomma hps⟩
        · cases h
          cases hc
    · cases h
      cases hc

end Step

/-- Reading without complaints follows the grammar, with any number of steps. -/
theorem sound (n : Nat) : Sound n := by
  induction n with
  | zero => exact sound_zero
  | succ n ih =>
    exact {
      statements := statements_sound ih
      statement := statement_sound ih
      block := block_sound ih
      expression := expression_sound ih
      operand := operand_sound ih
      extend := extend_sound ih
      extension := extension_sound ih
      conditional := conditional_sound ih
      function := function_sound ih
      expressions := expressions_sound ih
      moreExpressions := moreExpressions_sound ih
      pairs := pairs_sound ih }

end Parse

open Parse

/-- What is read without an abort is read to the last token. -/
theorem run_statements_of_parseTokens {ts : List Token} {r : Node × List Complaint}
    (h : parseTokens ts = .ok r) (hp : Proper ts) :
    ∃ trees, r.1 = .program trees ∧
      (statements (allowance ts.length) false).run ⟨ts, []⟩ = .ok (trees, ⟨[], r.2.reverse⟩) := by
  unfold parseTokens at h
  cases hr : (statements (allowance ts.length) false).run ⟨ts, []⟩ with
  | error a =>
    rw [hr] at h
    cases h
  | ok e =>
    obtain ⟨trees, s⟩ := e
    rw [hr] at h
    cases h
    have hsuffix : s.tokens <:+ ts := (keeping kept_suffix _).statements _ _ _ _ hr
    have hnil : s.tokens = [] := (hp.of_suffix hsuffix).eq_nil (kind_eq_eof_of_statements hr)
    refine ⟨trees, rfl, ?_⟩
    rw [List.reverse_reverse, ← hnil]

theorem reads_of_parseTokens {ts : List Token} {tree : Node} (h : parseTokens ts = .ok (tree, []))
    (hp : Proper ts) : Reads (.program tree) ts [] := by
  obtain ⟨ss, rfl, hr⟩ := run_statements_of_parseTokens h hp
  obtain ⟨hreads, -⟩ := (sound _).statements hr rfl hp
  exact .program hreads

end TreeWalk
