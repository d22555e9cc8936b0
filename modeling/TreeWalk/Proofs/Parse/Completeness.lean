import TreeWalk.Proofs.Parse.Allowance
import TreeWalk.Proofs.Parse.Soundness

/-! An expression is read from its first operand on and extended to the right, so the invariant for
expressions is about what comes next: whatever extending the expression leads to, reading from its
first token leads to. -/
namespace TreeWalk

namespace Parse

variable {α β : Type}

def Gives (p : Nat → Parse α) (ts : List Token) (a : α) (ts' : List Token) : Prop :=
  ∃ least, ∀ n, least ≤ n → (p n).run ⟨ts, []⟩ = .ok (a, ⟨ts', []⟩)

theorem Gives.of_succ {p : Nat → Parse α} {ts ts' : List Token} {a : α} (least : Nat)
    (h : ∀ n, least ≤ n → (p (n + 1)).run ⟨ts, []⟩ = .ok (a, ⟨ts', []⟩)) : Gives p ts a ts' := by
  refine ⟨least + 1, fun n hn => ?_⟩
  obtain ⟨n, rfl⟩ : ∃ k, n = k + 1 := ⟨n - 1, by omega⟩
  exact h n (by omega)

theorem gives_expression {level : Level} {ts ms ms' : List Token} {left e : Node}
    (hleft : Gives operand ts (some left) ms)
    (h : Gives (fun n => extend n level left) ms e ms') :
    Gives (fun n => expression n level) ts e ms' := by
  obtain ⟨a, ha⟩ := hleft
  obtain ⟨b, hb⟩ := h
  refine .of_succ (a + b) fun n hn => ?_
  rw [expression, run_bind_of_ok (ha n (by omega))]
  exact hb n (by omega)

/-- Nothing is read behind an expression that the token ahead does not extend. -/
theorem gives_extend_stop {level : Level} {ms : List Token} (e : Node)
    (h : (front ms.tail).kind.level.rank ≤ level.rank) :
    Gives (fun n => extend n level e) ms e ms := by
  refine .of_succ 0 fun n _ => ?_
  simp only [extend, run_ahead_bind, State.ahead_mk, Nat.not_lt.mpr h, ↓reduceIte, run_pure]

theorem gives_extend_step {level : Level} {op : Token} {ts ms ms' ms'' : List Token}
    {left e e' : Node} (hms : ms.tail = op :: ts) (h : level.rank < op.kind.level.rank)
    (he : Gives (fun n => extension n op left) (op :: ts) e ms')
    (he' : Gives (fun n => extend n level e) ms' e' ms'') :
    Gives (fun n => extend n level left) ms e' ms'' := by
  obtain ⟨a, ha⟩ := he
  obtain ⟨b, hb⟩ := he'
  refine .of_succ (a + b) fun n hn => ?_
  simp only [extend, run_ahead_bind, State.ahead_mk, hms, front_cons, h, ↓reduceIte,
    run_advance_bind, State.next_mk]
  rw [run_bind_of_ok (ha n (by omega))]
  exact hb n (by omega)

/-- What the parser makes of a phrase that takes up the tokens from `ts` to `rest`. -/
def Complete : Phrase → List Token → List Token → Prop
  | .program tree, ts, _ =>
    ∃ ss, tree = .program ss ∧ Gives (fun n => statements n false) ts ss []
  | .statements ss, ts, rest => ∀ inBlock,
    rest = [] ∨ inBlock = true ∧ (front rest).kind = .rbrace →
    Gives (fun n => statements n inBlock) ts ss rest
  | .statement e, ts, rest => ∃ ms, ms.tail = rest ∧ Gives statement ts e ms
  | .block e, ts, rest => ∃ ms, ms.tail = rest ∧ Gives block ts e ms
  | .expression top e, ts, rest => ∀ level, level.rank ≤ Level.unary.rank → Above level top →
    Fits (front rest) top → ∃ ms, ms.tail = rest ∧ ∀ {e' ms'},
      Gives (fun n => extend n level e) ms e' ms' →
      Gives (fun n => expression n level) ts e' ms'
  | .items close es, ts, rest => ∀ ms, close.closesItems → ms.tail = ts →
    ∃ ms', ms'.tail = rest ∧ Gives (fun n => expressions n close) ms (some es) ms'
  | .moreItems close es, ts, rest => ∀ ms, close.closesItems → ms.tail = ts →
    ∃ ms', ms'.tail = rest ∧ Gives (fun n => moreExpressions n close) ms (some es) ms'
  | .parameters ps, ts, rest => ∀ ms, ms.tail = ts →
    ∃ ms', ms'.tail = rest ∧ Gives parameters ms (some ps) ms'
  | .moreParameters ps, ts, rest => ∀ ms, ms.tail = ts →
    ∃ ms', ms'.tail = rest ∧ Gives moreParameters ms (some ps) ms'
  | .pairs ps, ts, rest => ∀ ms, ms.tail = ts →
    ∃ ms', ms'.tail = rest ∧ Gives pairs ms (some ps) ms'

/-- A whole expression, where the token behind it does not extend it. -/
theorem Complete.gives {top : Option Level} {e : Node} {ts rest : List Token} {level : Level}
    (h : Complete (.expression top e) ts rest) (hunary : level.rank ≤ Level.unary.rank)
    (habove : Above level top) (hstop : (front rest).kind.level.rank ≤ level.rank) :
    ∃ ms, ms.tail = rest ∧ Gives (fun n => expression n level) ts e ms := by
  have hfits : Fits (front rest) top := by
    simp only [Fits, Above] at habove ⊢
    omega
  obtain ⟨ms, hms, hgives⟩ := h level hunary habove hfits
  refine ⟨ms, hms, hgives (gives_extend_stop e ?_)⟩
  rw [hms]
  exact hstop

theorem Complete.gives_lowest {top : Option Level} {e : Node} {ts rest : List Token}
    (h : Complete (.expression top e) ts rest) (hr : Reads (.expression top e) ts rest)
    (hstop : (front rest).kind.level = .lowest) :
    ∃ ms, ms.tail = rest ∧ Gives (fun n => expression n .lowest) ts e ms := by
  refine h.gives (by decide) ?_ (Nat.le_of_eq (congrArg Level.rank hstop))
  have := hr.lt_topRank
  simp only [Above]
  omega

theorem Complete.of_operand {top : Option Level} {e : Node} {ts ms rest : List Token}
    (hms : ms.tail = rest) (h : Gives operand ts (some e) ms) :
    Complete (.expression top e) ts rest :=
  fun _ _ _ _ => ⟨ms, hms, fun hextend => gives_expression h hextend⟩

theorem Complete.of_token {top : Option Level} {e : Node} {t : Token} {rest : List Token}
    (h : ∀ n, (operand (n + 1)).run ⟨t :: rest, []⟩ = .ok (some e, ⟨t :: rest, []⟩)) :
    Complete (.expression top e) (t :: rest) rest :=
  .of_operand rfl (.of_succ 0 fun n _ => h n)

/-- An expression that an operator extends to the right. -/
theorem Complete.of_extension {top l : Option Level} {op : Token} {left e : Node}
    {ts ms ns rest : List Token} (hleft : Complete (.expression l left) ts (op :: ms))
    (htop : topRank top = op.kind.level.rank) (hfits : Fits op l) (hns : ns.tail = rest)
    (h : Gives (fun n => extension n op left) (op :: ms) e ns) :
    Complete (.expression top e) ts rest := by
  intro level hunary habove _
  have hne := op.kind.rank_level_ne_unary
  have hcall : Level.unary.rank < Level.call.rank := by decide
  simp only [Above, htop] at habove
  have hleft' : Above level l := by
    simp only [Above, Fits] at hfits ⊢
    omega
  obtain ⟨ms', hms', hgives⟩ := hleft level hunary hleft' hfits
  refine ⟨ns, hns, fun hextend => hgives (gives_extend_step hms' ?_ h hextend)⟩
  omega

theorem gives_unary {op : Token} {ts ms : List Token} {e : Node} (hop : op.kind.isUnary)
    (h : Gives (fun n => expression n .unary) ts e ms) :
    Gives operand (op :: ts) (some (.unary op op.literal e)) ms := by
  obtain ⟨a, ha⟩ := h
  refine .of_succ a fun n hn => ?_
  have hk : op.kind = .bang ∨ op.kind = .minus := by
    revert hop
    cases op.kind <;> simp [Kind.isUnary]
  rcases hk with hk | hk
  all_goals
    simp only [operand, run_current_bind, State.current_mk, front_cons, hk, run_advance_bind,
      State.next_mk, List.tail_cons]
    rw [run_bind_of_ok (ha n hn)]
    rfl

theorem gives_group {opening closing : Token} {ts ms rest : List Token} {e : Node}
    (hopening : opening.kind = .lparen) (hclosing : closing.kind = .rparen)
    (hms : ms.tail = closing :: rest) (h : Gives (fun n => expression n .lowest) ts e ms) :
    Gives operand (opening :: ts) (some e) (closing :: rest) := by
  obtain ⟨a, ha⟩ := h
  refine .of_succ a fun n hn => ?_
  simp only [operand, run_current_bind, State.current_mk, front_cons, hopening, run_advance_bind,
    State.next_mk, List.tail_cons]
  rw [run_bind_of_ok (ha n hn)]
  simp only [run_expect_bind, State.ahead_mk, State.next_mk, hms, front_cons, hclosing, ↓reduceIte,
    run_pure]

theorem gives_int {t : Token} {v : Int} {rest : List Token} (ht : Denotes t v) :
    Gives operand (t :: rest) (some (.intLit t v)) (t :: rest) := by
  have hle : ¬ maxInt < (decimalValue t.literal.toList : Int) := by
    have := ht.le
    rw [ht.eq] at this
    omega
  have hint : integer.run ⟨t :: rest, []⟩ = .ok (.intLit t v, ⟨t :: rest, []⟩) := by
    simp only [run_integer, State.current_mk, front_cons, Nat.not_lt.mpr ht.length_le, hle,
      ↓reduceIte, ht.eq]
  refine .of_succ 0 fun n _ => ?_
  simp only [operand, run_current_bind, State.current_mk, front_cons, ht.kind]
  rw [run_bind_of_ok hint]
  rfl

theorem gives_binary {op : Token} {ts ms : List Token} {left right : Node} (hop : op.kind.isBinary)
    (h : Gives (fun n => expression n op.kind.level) ts right ms) :
    Gives (fun n => extension n op left) (op :: ts) (.binary op op.literal left right) ms := by
  obtain ⟨a, ha⟩ := h
  refine .of_succ a fun n hn => ?_
  rw [extension]
  split
  · next hk =>
    rw [hk] at hop
    cases hop
  · next hk =>
    rw [hk] at hop
    cases hop
  · simp only [run_advance_bind, State.next_mk, List.tail_cons]
    rw [run_bind_of_ok (ha n hn)]
    rfl

theorem gives_call {opening : Token} {ts ms : List Token} {f : Node} {args : List Node}
    (hopening : opening.kind = .lparen)
    (h : Gives (fun n => expressions n .rparen) (opening :: ts) (some args) ms) :
    Gives (fun n => extension n opening f) (opening :: ts) (.call opening f args) ms := by
  obtain ⟨a, ha⟩ := h
  refine .of_succ a fun n hn => ?_
  simp only [extension, hopening]
  rw [run_bind_of_ok (ha n hn)]
  rfl

theorem gives_index {opening closing : Token} {ts ms rest : List Token} {left i : Node}
    (hopening : opening.kind = .lbracket) (hclosing : closing.kind = .rbracket)
    (hms : ms.tail = closing :: rest) (h : Gives (fun n => expression n .lowest) ts i ms) :
    Gives (fun n => extension n opening left) (opening :: ts) (.index opening left i)
      (closing :: rest) := by
  obtain ⟨a, ha⟩ := h
  refine .of_succ a fun n hn => ?_
  simp only [extension, hopening, run_advance_bind, State.next_mk, List.tail_cons]
  rw [run_bind_of_ok (ha n hn)]
  simp only [run_expect_bind, State.ahead_mk, State.next_mk, hms, front_cons, hclosing, ↓reduceIte,
    run_pure]

theorem gives_operand {f : Nat → Parse β} {t : Token} {rest ms : List Token} {b : β}
    (make : β → Node)
    (hoperand : ∀ n, (operand (n + 1)).run ⟨t :: rest, []⟩
      = (f n >>= fun b => pure (some (make b))).run ⟨t :: rest, []⟩)
    (h : Gives f (t :: rest) b ms) : Gives operand (t :: rest) (some (make b)) ms := by
  obtain ⟨a, ha⟩ := h
  refine .of_succ a fun n hn => ?_
  rw [hoperand, run_bind_of_ok (ha n hn)]
  rfl

theorem gives_array {t : Token} {rest ms : List Token} {es : List Node} (ht : t.kind = .lbracket)
    (h : Gives (fun n => expressions n .rbracket) (t :: rest) (some es) ms) :
    Gives operand (t :: rest) (some (.arrayLit t es)) ms := by
  refine gives_operand (fun o => (o.map (.arrayLit t)).getD .missing) (fun n => ?_) h
  simp only [operand, run_current_bind, State.current_mk, front_cons, ht]

theorem gives_hash {t : Token} {rest ms : List Token} {ps : List (Node × Node)}
    (ht : t.kind = .lbrace) (h : Gives pairs (t :: rest) (some ps) ms) :
    Gives operand (t :: rest) (some (.hashLit t ps)) ms := by
  refine gives_operand (fun o => (o.map (.hashLit t)).getD .missing) (fun n => ?_) h
  simp only [operand, run_current_bind, State.current_mk, front_cons, ht]

theorem gives_conditional {t : Token} {rest ms : List Token} {e : Node} (ht : t.kind = .ifWord)
    (h : Gives conditional (t :: rest) e ms) : Gives operand (t :: rest) (some e) ms := by
  refine gives_operand id (fun n => ?_) h
  simp only [operand, run_current_bind, State.current_mk, front_cons, ht, id]

theorem gives_function {t : Token} {rest ms : List Token} {e : Node} (ht : t.kind = .fnWord)
    (h : Gives function (t :: rest) e ms) : Gives operand (t :: rest) (some e) ms := by
  refine gives_operand id (fun n => ?_) h
  simp only [operand, run_current_bind, State.current_mk, front_cons, ht, id]

theorem gives_statements_nil {inBlock : Bool} {ts : List Token}
    (h : ts = [] ∨ inBlock = true ∧ (front ts).kind = .rbrace) :
    Gives (fun n => statements n inBlock) ts [] ts := by
  refine .of_succ 0 fun n _ => ?_
  have hend : (front ts).kind = .eof ∨ inBlock = true ∧ (front ts).kind = .rbrace := by
    rcases h with rfl | h
    · exact .inl rfl
    · exact .inr h
  simp only [statements, run_current_bind, State.current_mk, hend, ↓reduceIte, run_pure]

theorem gives_statements_cons {inBlock : Bool} {e : Node} {es : List Node}
    {ts ms ms' rest : List Token} (heof : (front ts).kind ≠ .eof)
    (hbrace : (front ts).kind ≠ .rbrace) (hmissing : e.isMissing = false) (hms : ms.tail = ms')
    (h : Gives statement ts e ms) (h' : Gives (fun n => statements n inBlock) ms' es rest) :
    Gives (fun n => statements n inBlock) ts (e :: es) rest := by
  obtain ⟨a, ha⟩ := h
  obtain ⟨b, hb⟩ := h'
  refine .of_succ (a + b) fun n hn => ?_
  simp only [statements, run_current_bind, State.current_mk, heof, hbrace, and_false, or_self,
    ↓reduceIte]
  rw [run_bind_of_ok (ha n (by omega)), run_advance_bind, State.next_mk, hms,
    run_bind_of_ok (hb n (by omega)), hmissing]
  rfl

theorem exists_ending {ms rest : List Token} (h : Ends ms.tail rest) :
    ∃ ns, ns.tail = rest ∧ ∀ e : Node,
      (endStatement >>= fun _ => (pure e : Parse Node)).run ⟨ms, []⟩ = .ok (e, ⟨ns, []⟩) := by
  generalize hms : ms.tail = ts at h
  cases h with
  | @semicolon t _ hk =>
    refine ⟨t :: rest, rfl, fun e => ?_⟩
    simp only [run_endStatement_bind, State.ahead_mk, State.next_mk, hms, front_cons, hk,
      ↓reduceIte, run_pure]
  | bare hk _ =>
    refine ⟨ms, hms, fun e => ?_⟩
    simp only [run_endStatement_bind, State.ahead_mk, hms, hk, ↓reduceIte, run_pure]

theorem complete_let {word name sign : Token} {ts ms rest : List Token} {e : Node}
    (hword : word.kind = .letWord) (hname : name.kind = .ident) (hsign : sign.kind = .assign)
    (h : Gives (fun n => expression n .lowest) ts e ms) (hends : Ends ms.tail rest) :
    Complete (.statement (.letStmt word (.ident name name.literal) e))
      (word :: name :: sign :: ts) rest := by
  obtain ⟨ns, hns, hend⟩ := exists_ending hends
  obtain ⟨a, ha⟩ := h
  refine ⟨ns, hns, .of_succ a fun n hn => ?_⟩
  simp only [statement, run_current_bind, State.current_mk, front_cons, hword, run_expect_bind,
    State.ahead_mk, List.tail_cons, hname, hsign, ↓reduceIte, State.next_mk, run_name_bind,
    run_advance_bind]
  rw [run_bind_of_ok (ha n hn)]
  exact hend _

theorem complete_return {word : Token} {ts ms rest : List Token} {e : Node}
    (hword : word.kind = .returnWord)
    (h : Gives (fun n => expression n .lowest) ts e ms) (hends : Ends ms.tail rest) :
    Complete (.statement (.returnStmt word e)) (word :: ts) rest := by
  obtain ⟨ns, hns, hend⟩ := exists_ending hends
  obtain ⟨a, ha⟩ := h
  refine ⟨ns, hns, .of_succ a fun n hn => ?_⟩
  simp only [statement, run_current_bind, State.current_mk, front_cons, hword, run_advance_bind,
    State.next_mk, List.tail_cons]
  rw [run_bind_of_ok (ha n hn)]
  exact hend _

theorem complete_exprStmt {ts ms rest : List Token} {e : Node}
    (hbegins : (front ts).kind.beginsExpression)
    (h : Gives (fun n => expression n .lowest) ts e ms) (hends : Ends ms.tail rest) :
    Complete (.statement (.exprStmt (front ts) e)) ts rest := by
  obtain ⟨ns, hns, hend⟩ := exists_ending hends
  obtain ⟨a, ha⟩ := h
  refine ⟨ns, hns, .of_succ a fun n hn => ?_⟩
  simp only [statement, run_current_bind, State.current_mk]
  split
  · next hk =>
    rw [hk] at hbegins
    cases hbegins
  · next hk =>
    rw [hk] at hbegins
    cases hbegins
  · rw [run_bind_of_ok (ha n hn)]
    exact hend _

theorem gives_block {opening : Token} {ss : List Node} {ts rest : List Token}
    (h : Gives (fun n => statements n true) ts ss rest) :
    Gives block (opening :: ts) (.block opening ss) rest := by
  obtain ⟨a, ha⟩ := h
  refine .of_succ a fun n hn => ?_
  simp only [block, run_current_bind, State.current_mk, front_cons, run_advance_bind, State.next_mk,
    List.tail_cons]
  rw [run_bind_of_ok (ha n hn)]
  rfl

theorem gives_ifThen {word opening closing : Token} {ts ms ms' ns : List Token} {c a : Node}
    (hopening : opening.kind = .lparen)
    (hcondition : Gives (fun n => expression n .lowest) ts c ms)
    (hms : ms.tail = closing :: ms') (hclosing : closing.kind = .rparen)
    (hbrace : (front ms').kind = .lbrace) (hthen : Gives block ms' a ns)
    (helse : (front ns.tail).kind ≠ .elseWord) :
    Gives conditional (word :: opening :: ts) (.ifExpr word c a .missing) ns := by
  obtain ⟨i, hi⟩ := hcondition
  obtain ⟨j, hj⟩ := hthen
  refine .of_succ (i + j) fun n hn => ?_
  simp only [conditional, run_current_bind, State.current_mk, front_cons, run_expect_bind,
    State.ahead_mk, List.tail_cons, hopening, ↓reduceIte, State.next_mk, run_advance_bind]
  rw [run_bind_of_ok (hi n (by omega))]
  simp only [run_expect_bind, State.ahead_mk, State.next_mk, hms, front_cons, hclosing,
    List.tail_cons, hbrace, ↓reduceIte]
  rw [run_bind_of_ok (hj n (by omega))]
  simp only [run_ahead_bind, State.ahead_mk, helse, ↓reduceIte, run_pure]

theorem gives_ifElse {word opening closing other : Token} {ts ms ms' ns ns' os : List Token}
    {c a b : Node} (hopening : opening.kind = .lparen)
    (hcondition : Gives (fun n => expression n .lowest) ts c ms)
    (hms : ms.tail = closing :: ms') (hclosing : closing.kind = .rparen)
    (hbrace : (front ms').kind = .lbrace) (hthen : Gives block ms' a ns)
    (hns : ns.tail = other :: ns') (hother : other.kind = .elseWord)
    (hbrace' : (front ns').kind = .lbrace) (helse : Gives block ns' b os) :
    Gives conditional (word :: opening :: ts) (.ifExpr word c a b) os := by
  obtain ⟨i, hi⟩ := hcondition
  obtain ⟨j, hj⟩ := hthen
  obtain ⟨k, hk⟩ := helse
  refine .of_succ (i + j + k) fun n hn => ?_
  simp only [conditional, run_current_bind, State.current_mk, front_cons, run_expect_bind,
    State.ahead_mk, List.tail_cons, hopening, ↓reduceIte, State.next_mk, run_advance_bind]
  rw [run_bind_of_ok (hi n (by omega))]
  simp only [run_expect_bind, State.ahead_mk, State.next_mk, hms, front_cons, hclosing,
    List.tail_cons, hbrace, ↓reduceIte]
  rw [run_bind_of_ok (hj n (by omega))]
  simp only [run_ahead_bind, State.ahead_mk, hns, front_cons, hother, ↓reduceIte, run_advance_bind,
    run_expect_bind, State.next_mk, List.tail_cons, hbrace']
  rw [run_bind_of_ok (hk n (by omega))]
  rfl

theorem gives_fnLit {word opening : Token} {ts ms ms' ns : List Token} {ps : List Node} {b : Node}
    (hopening : opening.kind = .lparen) (hps : Gives parameters (opening :: ts) (some ps) ms)
    (hms : ms.tail = ms') (hbrace : (front ms').kind = .lbrace) (hbody : Gives block ms' b ns) :
    Gives function (word :: opening :: ts) (.fnLit word ps b) ns := by
  obtain ⟨i, hi⟩ := hps
  obtain ⟨j, hj⟩ := hbody
  refine .of_succ (i + j) fun n hn => ?_
  simp only [function, run_current_bind, State.current_mk, front_cons, run_expect_bind,
    State.ahead_mk, List.tail_cons, hopening, ↓reduceIte, State.next_mk]
  rw [run_bind_of_ok (hi n (by omega))]
  simp only [run_expect_bind, State.ahead_mk, State.next_mk, hms, hbrace, ↓reduceIte]
  rw [run_bind_of_ok (hj n (by omega))]
  rfl

theorem gives_moreParameters_nil {closing : Token} {ms rest : List Token}
    (hms : ms.tail = closing :: rest) (hclosing : closing.kind = .rparen) :
    Gives moreParameters ms (some []) (closing :: rest) := by
  refine .of_succ 0 fun n _ => ?_
  simp only [moreParameters, run_ahead_bind, State.ahead_mk, hms, front_cons, hclosing,
    reduceCtorEq, run_expect_bind, State.next_mk, ↓reduceIte, run_pure]

theorem gives_moreParameters_cons {comma name : Token} {ms ts ns : List Token} {ps : List Node}
    (hms : ms.tail = comma :: name :: ts) (hcomma : comma.kind = .comma)
    (hname : name.kind = .ident) (h : Gives moreParameters (name :: ts) (some ps) ns) :
    Gives moreParameters ms (some (.ident name name.literal :: ps)) ns := by
  obtain ⟨a, ha⟩ := h
  refine .of_succ a fun n hn => ?_
  simp only [moreParameters, run_ahead_bind, State.ahead_mk, hms, front_cons, hcomma, ↓reduceIte,
    run_advance_bind, State.next_mk, run_expect_bind, List.tail_cons, hname, run_name_bind,
    State.current_mk]
  rw [run_bind_of_ok (ha n hn)]
  rfl

theorem gives_parameters_nil {closing : Token} {ms rest : List Token}
    (hms : ms.tail = closing :: rest) (hclosing : closing.kind = .rparen) :
    Gives parameters ms (some []) (closing :: rest) := by
  refine .of_succ 0 fun n _ => ?_
  simp only [parameters, run_ahead_bind, State.ahead_mk, hms, front_cons, hclosing, ↓reduceIte,
    run_advance_bind, State.next_mk, run_pure]

theorem gives_parameters_cons {name : Token} {ms ts ns : List Token} {ps : List Node}
    (hms : ms.tail = name :: ts) (hname : name.kind = .ident)
    (h : Gives moreParameters (name :: ts) (some ps) ns) :
    Gives parameters ms (some (.ident name name.literal :: ps)) ns := by
  obtain ⟨a, ha⟩ := h
  refine ⟨a, fun n hn => ?_⟩
  simp only [parameters, run_ahead_bind, State.ahead_mk, hms, front_cons, hname, reduceCtorEq,
    ↓reduceIte, State.next_mk, run_expect_bind, run_name_bind, State.current_mk]
  rw [run_bind_of_ok (ha n hn)]
  rfl

theorem gives_expressions_nil {close : Kind} {closing : Token} {ms rest : List Token}
    (hms : ms.tail = closing :: rest) (hclosing : closing.kind = close) :
    Gives (fun n => expressions n close) ms (some []) (closing :: rest) := by
  refine .of_succ 0 fun n _ => ?_
  simp only [expressions, run_ahead_bind, State.ahead_mk, hms, front_cons, hclosing, ↓reduceIte,
    run_advance_bind, State.next_mk, run_pure]

theorem gives_expressions_cons {close : Kind} {ms ts ns os : List Token} {e : Node} {es : List Node}
    (hms : ms.tail = ts) (hclose : (front ts).kind ≠ close)
    (h : Gives (fun n => expression n .lowest) ts e ns)
    (h' : Gives (fun n => moreExpressions n close) ns (some es) os) :
    Gives (fun n => expressions n close) ms (some (e :: es)) os := by
  obtain ⟨a, ha⟩ := h
  obtain ⟨b, hb⟩ := h'
  refine .of_succ (a + b) fun n hn => ?_
  simp only [expressions, run_ahead_bind, State.ahead_mk, hms, hclose, ↓reduceIte, run_advance_bind,
    State.next_mk]
  rw [run_bind_of_ok (ha n (by omega)), run_bind_of_ok (hb n (by omega))]
  rfl

theorem gives_moreExpressions_nil {close : Kind} {closing : Token} {ms rest : List Token}
    (hms : ms.tail = closing :: rest) (hclosing : closing.kind = close) (hcomma : close ≠ .comma) :
    Gives (fun n => moreExpressions n close) ms (some []) (closing :: rest) := by
  refine .of_succ 0 fun n _ => ?_
  simp only [moreExpressions, run_ahead_bind, State.ahead_mk, hms, front_cons, hclosing, hcomma,
    run_expect_bind, State.next_mk, ↓reduceIte, run_pure]

theorem gives_moreExpressions_cons {close : Kind} {comma : Token} {ms ts ns os : List Token}
    {e : Node} {es : List Node} (hms : ms.tail = comma :: ts) (hcomma : comma.kind = .comma)
    (h : Gives (fun n => expression n .lowest) ts e ns)
    (h' : Gives (fun n => moreExpressions n close) ns (some es) os) :
    Gives (fun n => moreExpressions n close) ms (some (e :: es)) os := by
  obtain ⟨a, ha⟩ := h
  obtain ⟨b, hb⟩ := h'
  refine .of_succ (a + b) fun n hn => ?_
  simp only [moreExpressions, run_ahead_bind, State.ahead_mk, hms, front_cons, hcomma, ↓reduceIte,
    run_advance_bind, State.next_mk, List.tail_cons]
  rw [run_bind_of_ok (ha n (by omega)), run_bind_of_ok (hb n (by omega))]
  rfl

theorem gives_pairs_nil {closing : Token} {ms rest : List Token} (hms : ms.tail = closing :: rest)
    (hclosing : closing.kind = .rbrace) : Gives pairs ms (some []) (closing :: rest) := by
  refine .of_succ 0 fun n _ => ?_
  simp only [pairs, run_ahead_bind, State.ahead_mk, hms, front_cons, hclosing, ↓reduceIte,
    run_advance_bind, State.next_mk, run_pure]

/-- A pair and what comes behind it: the closing brace, or a comma and more pairs. -/
theorem gives_pairs_cons {colon : Token} {ms ts ns ns' os os' us : List Token} {key value : Node}
    {ps : List (Node × Node)} (hms : ms.tail = ts) (hbrace : (front ts).kind ≠ .rbrace)
    (hkey : Gives (fun n => expression n .lowest) ts key ns) (hns : ns.tail = colon :: ns')
    (hcolon : colon.kind = .colon) (hvalue : Gives (fun n => expression n .lowest) ns' value os)
    (hos : (front os.tail).kind = .rbrace ∧ os' = os ∨
      (front os.tail).kind = .comma ∧ os' = os.tail)
    (h : Gives pairs os' (some ps) us) : Gives pairs ms (some ((key, value) :: ps)) us := by
  obtain ⟨a, ha⟩ := hkey
  obtain ⟨b, hb⟩ := hvalue
  obtain ⟨c, hc⟩ := h
  refine .of_succ (a + b + c) fun n hn => ?_
  simp only [pairs, run_ahead_bind, State.ahead_mk, hms, hbrace, ↓reduceIte, run_advance_bind,
    State.next_mk]
  rw [run_bind_of_ok (ha n (by omega))]
  simp only [run_expect_bind, State.ahead_mk, hns, front_cons, hcolon, ↓reduceIte, State.next_mk,
    run_advance_bind, List.tail_cons]
  rw [run_bind_of_ok (hb n (by omega))]
  rcases hos with ⟨hk, rfl⟩ | ⟨hk, rfl⟩
  · simp only [run_ahead_bind, State.ahead_mk, hk, ↓reduceIte]
    rw [run_bind_of_ok (hc n (by omega))]
    rfl
  · simp only [run_ahead_bind, State.ahead_mk, hk, reduceCtorEq, ↓reduceIte, run_expect_bind,
      State.next_mk]
    rw [run_bind_of_ok (hc n (by omega))]
    rfl

theorem ne_of_beginsExpression {k k' : Kind} (h : k.beginsExpression)
    (h' : k'.beginsExpression = false) : k ≠ k' := by
  rintro rfl
  rw [h] at h'
  cases h'

theorem complete_unary {op : Token} {top : Option Level} {e : Node} {ts rest : List Token}
    (hop : op.kind.isUnary) (level : Level.unary.rank ≤ topRank top)
    (h : Complete (.expression top e) ts rest) :
    Complete (.expression (some .unary) (.unary op op.literal e)) (op :: ts) rest := by
  intro l hunary habove hfits
  have hstop : (front rest).kind.level.rank ≤ Level.unary.rank := by
    have hcall : Level.unary.rank < Level.call.rank := by decide
    simp only [Fits, topRank] at hfits
    omega
  obtain ⟨ms, hms, hgives⟩ := h.gives (Nat.le_refl _) level hstop
  exact ⟨ms, hms, gives_expression (gives_unary hop hgives)⟩

theorem complete_binary {op : Token} {l r : Option Level} {a b : Node} {ts ms rest : List Token}
    (hop : op.kind.isBinary) (hleft : op.kind.level.rank ≤ topRank l)
    (hright : op.kind.level.rank < topRank r) (h : Complete (.expression l a) ts (op :: ms))
    (h' : Complete (.expression r b) ms rest) :
    Complete (.expression (some op.kind.level) (.binary op op.literal a b)) ts rest := by
  intro level hunary habove hfits
  have hlt := Kind.rank_lt_of_isBinary hop
  have hcall : Level.unary.rank < Level.call.rank := by decide
  have hright' : Above op.kind.level r := Nat.le_trans (Nat.min_le_left ..) hright
  have hstop : (front rest).kind.level.rank ≤ op.kind.level.rank := by
    simp only [Fits, topRank] at hfits
    omega
  obtain ⟨ns, hns, hgives⟩ := h'.gives (Nat.le_of_lt hlt) hright' hstop
  have hfits' : Fits op l := Nat.le_trans (Nat.min_le_left ..) hleft
  exact Complete.of_extension h rfl hfits' hns (gives_binary hop hgives) level hunary habove hfits

theorem complete_ifThen {word opening closing : Token} {top : Option Level} {c a : Node}
    {ts ms rest : List Token} (hword : word.kind = .ifWord) (hopening : opening.kind = .lparen)
    (condition : Reads (.expression top c) ts (closing :: ms)) (hclosing : closing.kind = .rparen)
    (consequence : Reads (.block a) ms rest) (noElse : (front rest).kind ≠ .elseWord)
    (h : Complete (.expression top c) ts (closing :: ms)) (h' : Complete (.block a) ms rest) :
    Complete (.expression none (.ifExpr word c a .missing)) (word :: opening :: ts) rest := by
  obtain ⟨ms, hms, hgives⟩ := h.gives_lowest condition (by rw [front_cons, hclosing]; rfl)
  obtain ⟨ns, hns, hgives'⟩ := h'
  exact .of_operand hns (gives_conditional hword (gives_ifThen hopening hgives hms hclosing
    consequence.kind_opening hgives' (hns ▸ noElse)))

theorem complete_ifElse {word opening closing other : Token} {top : Option Level} {c a b : Node}
    {ts ms ns rest : List Token} (hword : word.kind = .ifWord) (hopening : opening.kind = .lparen)
    (condition : Reads (.expression top c) ts (closing :: ms)) (hclosing : closing.kind = .rparen)
    (consequence : Reads (.block a) ms (other :: ns)) (hother : other.kind = .elseWord)
    (alternative : Reads (.block b) ns rest)
    (h : Complete (.expression top c) ts (closing :: ms))
    (h' : Complete (.block a) ms (other :: ns)) (h'' : Complete (.block b) ns rest) :
    Complete (.expression none (.ifExpr word c a b)) (word :: opening :: ts) rest := by
  obtain ⟨ms, hms, hgives⟩ := h.gives_lowest condition (by rw [front_cons, hclosing]; rfl)
  obtain ⟨ns, hns, hgives'⟩ := h'
  obtain ⟨os, hos, hgives''⟩ := h''
  exact .of_operand hos (gives_conditional hword (gives_ifElse hopening hgives hms hclosing
    consequence.kind_opening hgives' hns hother alternative.kind_opening hgives''))

theorem complete_items {close : Kind} {top : Option Level} {e : Node} {es : List Node}
    {ts ms rest : List Token} (first : Reads (.expression top e) ts ms)
    (more : Reads (.moreItems close es) ms rest) (h : Complete (.expression top e) ts ms)
    (h' : Complete (.moreItems close es) ms rest) : Complete (.items close (e :: es)) ts rest := by
  intro ms hclose hms
  obtain ⟨ns, hns, hgives⟩ := h.gives_lowest first (more.level_moreItems hclose)
  obtain ⟨os, hos, hgives'⟩ := h' ns hclose hns
  have hne := ne_of_beginsExpression (first.beginsExpression rfl)
    (Kind.beginsExpression_of_closesItems hclose)
  exact ⟨os, hos, gives_expressions_cons hms hne hgives hgives'⟩

theorem complete_nextItem {close : Kind} {comma : Token} {top : Option Level} {e : Node}
    {es : List Node} {ts ms rest : List Token} (hcomma : comma.kind = .comma)
    (first : Reads (.expression top e) ts ms) (more : Reads (.moreItems close es) ms rest)
    (h : Complete (.expression top e) ts ms) (h' : Complete (.moreItems close es) ms rest) :
    Complete (.moreItems close (e :: es)) (comma :: ts) rest := by
  intro ms hclose hms
  obtain ⟨ns, hns, hgives⟩ := h.gives_lowest first (more.level_moreItems hclose)
  obtain ⟨os, hos, hgives'⟩ := h' ns hclose hns
  exact ⟨os, hos, gives_moreExpressions_cons hms hcomma hgives hgives'⟩

theorem complete_lastPair {colon closing : Token} {top top' : Option Level} {key value : Node}
    {ts ms rest : List Token} (hkey : Reads (.expression top key) ts (colon :: ms))
    (hcolon : colon.kind = .colon) (hvalue : Reads (.expression top' value) ms (closing :: rest))
    (hclosing : closing.kind = .rbrace) (h : Complete (.expression top key) ts (colon :: ms))
    (h' : Complete (.expression top' value) ms (closing :: rest)) :
    Complete (.pairs [(key, value)]) ts rest := by
  intro ms hms
  obtain ⟨ns, hns, hgives⟩ := h.gives_lowest hkey (by rw [front_cons, hcolon]; rfl)
  obtain ⟨os, hos, hgives'⟩ := h'.gives_lowest hvalue (by rw [front_cons, hclosing]; rfl)
  have hne : (front _).kind ≠ .rbrace := ne_of_beginsExpression (hkey.beginsExpression rfl) rfl
  have hclosing' : (front os.tail).kind = .rbrace := by rw [hos, front_cons, hclosing]
  exact ⟨_, rfl, gives_pairs_cons hms hne hgives hns hcolon hgives' (.inl ⟨hclosing', rfl⟩)
    (gives_pairs_nil hos hclosing)⟩

theorem complete_nextPair {colon comma : Token} {top top' : Option Level} {key value : Node}
    {ps : List (Node × Node)} {ts ms ns rest : List Token}
    (hkey : Reads (.expression top key) ts (colon :: ms)) (hcolon : colon.kind = .colon)
    (hvalue : Reads (.expression top' value) ms (comma :: ns)) (hcomma : comma.kind = .comma)
    (h : Complete (.expression top key) ts (colon :: ms))
    (h' : Complete (.expression top' value) ms (comma :: ns)) (h'' : Complete (.pairs ps) ns rest) :
    Complete (.pairs ((key, value) :: ps)) ts rest := by
  intro ms hms
  obtain ⟨ns, hns, hgives⟩ := h.gives_lowest hkey (by rw [front_cons, hcolon]; rfl)
  obtain ⟨os, hos, hgives'⟩ := h'.gives_lowest hvalue (by rw [front_cons, hcomma]; rfl)
  have hne : (front _).kind ≠ .rbrace := ne_of_beginsExpression (hkey.beginsExpression rfl) rfl
  have hcomma' : (front os.tail).kind = .comma := by rw [hos, front_cons, hcomma]
  obtain ⟨us, hus, hgives''⟩ := h'' os.tail (by rw [hos]; rfl)
  exact ⟨us, hus, gives_pairs_cons hms hne hgives hns hcolon hgives' (.inr ⟨hcomma', rfl⟩)
    hgives''⟩

theorem complete {p : Phrase} {ts rest : List Token} (h : Reads p ts rest) :
    Complete p ts rest := by
  induction h with
  | program _ ih => exact ⟨_, rfl, ih false (.inl rfl)⟩
  | nil => exact fun _ hend => gives_statements_nil hend
  | cons head _ ih ih' =>
    intro inBlock hend
    obtain ⟨ms, hms, hgives⟩ := ih
    obtain ⟨heof, hbrace⟩ := head.front_statement
    exact gives_statements_cons heof hbrace head.isMissing_statement hms hgives (ih' inBlock hend)
  | letStmt hword hname hsign value ends ih =>
    obtain ⟨ms, hms, hgives⟩ := ih.gives_lowest value ends.level_front
    exact complete_let hword hname hsign hgives (hms ▸ ends)
  | returnStmt hword value ends ih =>
    obtain ⟨ms, hms, hgives⟩ := ih.gives_lowest value ends.level_front
    exact complete_return hword hgives (hms ▸ ends)
  | exprStmt value ends ih =>
    obtain ⟨ms, hms, hgives⟩ := ih.gives_lowest value ends.level_front
    exact complete_exprStmt (value.beginsExpression rfl) hgives (hms ▸ ends)
  | @block opening closing ss ts rest _ _ hclosing ih =>
    exact ⟨closing :: rest, rfl, gives_block (ih true (.inr ⟨rfl, hclosing⟩))⟩
  | cutBlock _ _ ih => exact ⟨[], rfl, gives_block (ih true (.inl rfl))⟩
  | ident ht | str ht | true ht | false ht =>
    refine .of_token fun n => ?_
    simp only [operand, run_current_bind, State.current_mk, front_cons, ht, run_pure]
  | int ht => exact .of_operand rfl (gives_int ht)
  | group hopening inner hclosing ih =>
    obtain ⟨ms, hms, hgives⟩ := ih.gives_lowest inner (by rw [front_cons, hclosing]; rfl)
    exact .of_operand rfl (gives_group hopening hclosing hms hgives)
  | unary hop _ level ih => exact complete_unary hop level ih
  | binary hop _ _ hleft hright ih ih' => exact complete_binary hop hleft hright ih ih'
  | @call opening _ _ _ _ ms _ hopening _ _ level ih ih' =>
    obtain ⟨ns, hns, hgives⟩ := ih' (opening :: ms) rfl rfl
    refine .of_extension ih (by rw [hopening]; rfl) ?_ hns (gives_call hopening hgives)
    exact Nat.le_trans (Nat.min_le_right ..) level
  | index hopening _ position hclosing level ih ih' =>
    obtain ⟨ms, hms, hgives⟩ := ih'.gives_lowest position (by rw [front_cons, hclosing]; rfl)
    refine .of_extension ih (by rw [hopening]; rfl) ?_ rfl
      (gives_index hopening hclosing hms hgives)
    exact Nat.le_trans (Nat.min_le_right ..) level
  | ifThen hword hopening condition hclosing consequence noElse ih ih' =>
    exact complete_ifThen hword hopening condition hclosing consequence noElse ih ih'
  | ifElse hword hopening condition hclosing consequence hother alternative ih ih' ih'' =>
    exact complete_ifElse hword hopening condition hclosing consequence hother alternative ih ih'
      ih''
  | @function _ opening _ _ ts _ _ hword hopening _ body ih ih' =>
    obtain ⟨ms, hms, hgives⟩ := ih (opening :: ts) rfl
    obtain ⟨ns, hns, hgives'⟩ := ih'
    exact .of_operand hns (gives_function hword
      (gives_fnLit hopening hgives hms body.kind_opening hgives'))
  | @array opening _ ts _ hopening _ ih =>
    obtain ⟨ms, hms, hgives⟩ := ih (opening :: ts) rfl rfl
    exact .of_operand hms (gives_array hopening hgives)
  | @hash opening _ ts _ hopening _ ih =>
    obtain ⟨ms, hms, hgives⟩ := ih (opening :: ts) rfl
    exact .of_operand hms (gives_hash hopening hgives)
  | noItems hclosing => exact fun _ _ hms => ⟨_, rfl, gives_expressions_nil hms hclosing⟩
  | items first more ih ih' => exact complete_items first more ih ih'
  | lastItem hclosing => exact fun _ hclose hms =>
      ⟨_, rfl, gives_moreExpressions_nil hms hclosing (Kind.ne_of_closesItems hclose)⟩
  | nextItem hcomma first more ih ih' => exact complete_nextItem hcomma first more ih ih'
  | noParameters hclosing => exact fun _ hms => ⟨_, rfl, gives_parameters_nil hms hclosing⟩
  | @parameters name _ ts _ hname _ ih =>
    intro ms hms
    obtain ⟨ns, hns, hgives⟩ := ih (name :: ts) rfl
    exact ⟨ns, hns, gives_parameters_cons hms hname hgives⟩
  | lastParameter hclosing => exact fun _ hms => ⟨_, rfl, gives_moreParameters_nil hms hclosing⟩
  | @nextParameter _ name _ ts _ hcomma hname _ ih =>
    intro ms hms
    obtain ⟨ns, hns, hgives⟩ := ih (name :: ts) rfl
    exact ⟨ns, hns, gives_moreParameters_cons hms hcomma hname hgives⟩
  | noPairs hclosing => exact fun _ hms => ⟨_, rfl, gives_pairs_nil hms hclosing⟩
  | lastPair hkey hcolon hvalue hclosing ih ih' =>
    exact complete_lastPair hkey hcolon hvalue hclosing ih ih'
  | nextPair hkey hcolon hvalue hcomma _ ih ih' ih'' =>
    exact complete_nextPair hkey hcolon hvalue hcomma ih ih' ih''

end Parse

open Parse

theorem parseTokens_of_reads {ts : List Token} {tree : Node} (h : Reads (.program tree) ts []) :
    parseTokens ts = .ok (tree, []) := by
  obtain ⟨ss, rfl, least, hgives⟩ := complete h
  have hle : allowance ts.length ≤ least + allowance ts.length := Nat.le_add_left ..
  have hrun := (run_statements_allowance hle).trans (hgives _ (Nat.le_add_right ..))
  unfold parseTokens
  rw [hrun]
  rfl

/-- A source is read without complaint exactly if its tokens, all of them and in order, follow the
grammar, and what is read is the tree of the derivation. -/
theorem parse_eq_ok_iff_reads (source : String) (tree : Node) :
    parse source = .ok (tree, []) ↔ Reads (.program tree) (Token.ofText source) [] :=
  ⟨fun h => reads_of_parseTokens h (proper_tokenize _), fun h => parseTokens_of_reads h⟩

end TreeWalk
