import TreeWalk.Proofs.Parse.Run

/-! A run gets to its end exactly if all the calls it makes do, and each of these has fewer tokens
to read, or as many and goes to a function of a lower rank. -/
namespace TreeWalk.Parse

variable {α β : Type}

def outcome (p : Parse α) (s : State) : Except Abort State := (p.run s).map Prod.snd

theorem outcome_of_run {p : Parse α} {s m : State} {a : α} (h : p.run s = .ok (a, m)) :
    outcome p s = .ok m := by
  rw [outcome, h]
  rfl

def Finishes (p : Parse α) (s : State) : Prop := p.run s ≠ .error .exhausted

theorem finishes_bind {x : Parse α} {f : α → Parse β} {s : State} :
    Finishes (x >>= f) s ↔ Finishes x s ∧ ∀ a m, x.run s = .ok (a, m) → Finishes (f a) m := by
  unfold Finishes
  rw [run_bind]
  cases hr : x.run s with
  | error e =>
    have herror : (Except.error e >>= fun r : α × State => (f r.1).run r.2) = .error e := rfl
    simp [herror]
  | ok r => exact ⟨fun h => ⟨nofun, fun a m heq => by cases heq; exact h⟩, fun h => h.2 _ _ rfl⟩

theorem finishes_pure (a : α) (s : State) : Finishes (pure a) s := nofun

theorem outcome_ne_exhausted {p : Parse α} {s : State} :
    outcome p s ≠ .error .exhausted ↔ Finishes p s := by
  unfold outcome Finishes
  cases p.run s with
  | error e => exact ⟨fun h heq => h (heq ▸ rfl), fun h heq => h (Except.error.inj heq ▸ rfl)⟩
  | ok r => exact ⟨nofun, nofun⟩

inductive Job where
  | statements (inBlock : Bool)
  | statement
  | block
  | expression (level : Level)
  | operand
  | extend (level : Level) (left : Node)
  | extension (t : Token) (left : Node)
  | conditional
  | function
  | moreParameters
  | expressions (close : Kind)
  | moreExpressions (close : Kind)
  | pairs

def Job.outcome (n : Nat) : Job → State → Except Abort State
  | statements inBlock => Parse.outcome (Parse.statements n inBlock)
  | statement => Parse.outcome (Parse.statement n)
  | block => Parse.outcome (Parse.block n)
  | expression level => Parse.outcome (Parse.expression n level)
  | operand => Parse.outcome (Parse.operand n)
  | extend level left => Parse.outcome (Parse.extend n level left)
  | extension t left => Parse.outcome (Parse.extension n t left)
  | conditional => Parse.outcome (Parse.conditional n)
  | function => Parse.outcome (Parse.function n)
  | moreParameters => Parse.outcome (Parse.moreParameters n)
  | expressions close => Parse.outcome (Parse.expressions n close)
  | moreExpressions close => Parse.outcome (Parse.moreExpressions n close)
  | pairs => Parse.outcome (Parse.pairs n)

structure Call where
  job : Job
  state : State

/-- The calls that come after a run, if it gets to its end. -/
def follow (p : Parse α) (s : State) (f : α → State → List Call) : List Call :=
  match p.run s with
  | .ok (a, m) => f a m
  | .error _ => []

def onlyIf (c : Prop) [Decidable c] (cs : List Call) : List Call := if c then cs else []

def parameterCalls (s : State) : List Call :=
  if s.ahead.kind = .rparen then []
  else onlyIf (s.ahead.kind = .ident) [⟨.moreParameters, s.next⟩]

/-- The calls that a job makes itself, in order, with so many steps for each of them. -/
def Job.calls (n : Nat) : Job → State → List Call
  | statements inBlock, s =>
    if s.current.kind = .eof ∨ inBlock ∧ s.current.kind = .rbrace then []
    else ⟨statement, s⟩ :: follow (Parse.statement n) s fun _ m => [⟨statements inBlock, m.next⟩]
  | statement, s =>
    match s.current.kind with
    | .letWord =>
      onlyIf (s.ahead.kind = .ident) <| onlyIf (s.next.ahead.kind = .assign)
        [⟨expression .lowest, s.next.next.next⟩]
    | .returnWord => [⟨expression .lowest, s.next⟩]
    | _ => [⟨expression .lowest, s⟩]
  | block, s => [⟨statements true, s.next⟩]
  | expression level, s =>
    ⟨operand, s⟩ :: follow (Parse.operand n) s fun o m =>
      match o with
      | some left => [⟨extend level left, m⟩]
      | none => []
  | operand, s =>
    match s.current.kind with
    | .bang | .minus => [⟨expression .unary, s.next⟩]
    | .lparen => [⟨expression .lowest, s.next⟩]
    | .ifWord => [⟨conditional, s⟩]
    | .fnWord => [⟨function, s⟩]
    | .lbracket => [⟨expressions .rbracket, s⟩]
    | .lbrace => [⟨pairs, s⟩]
    | _ => []
  | extend level left, s =>
    onlyIf (level.rank < s.ahead.kind.level.rank) <|
      ⟨extension s.ahead left, s.next⟩ :: follow (Parse.extension n s.ahead left) s.next fun e m =>
        [⟨extend level e, m⟩]
  | extension t _, s =>
    match t.kind with
    | .lparen => [⟨expressions .rparen, s⟩]
    | .lbracket => [⟨expression .lowest, s.next⟩]
    | kind => [⟨expression kind.level, s.next⟩]
  | conditional, s =>
    onlyIf (s.ahead.kind = .lparen) <|
      ⟨expression .lowest, s.next.next⟩ ::
        follow (Parse.expression n .lowest) s.next.next fun _ m =>
          onlyIf (m.ahead.kind = .rparen) <| onlyIf (m.next.ahead.kind = .lbrace) <|
            ⟨block, m.next.next⟩ :: follow (Parse.block n) m.next.next fun _ m' =>
              onlyIf (m'.ahead.kind = .elseWord) <| onlyIf (m'.next.ahead.kind = .lbrace)
                [⟨block, m'.next.next⟩]
  | function, s =>
    onlyIf (s.ahead.kind = .lparen) <|
      parameterCalls s.next ++
        follow (parameters n) s.next fun ps m =>
          match ps with
          | some _ => onlyIf (m.ahead.kind = .lbrace) [⟨block, m.next⟩]
          | none => []
  | moreParameters, s =>
    onlyIf (s.ahead.kind = .comma) <| onlyIf (s.next.ahead.kind = .ident)
      [⟨moreParameters, s.next.next⟩]
  | expressions close, s =>
    if s.ahead.kind = close then []
    else
      ⟨expression .lowest, s.next⟩ :: follow (Parse.expression n .lowest) s.next fun _ m =>
        [⟨moreExpressions close, m⟩]
  | moreExpressions close, s =>
    onlyIf (s.ahead.kind = .comma) <|
      ⟨expression .lowest, s.next.next⟩ ::
        follow (Parse.expression n .lowest) s.next.next fun _ m => [⟨moreExpressions close, m⟩]
  | pairs, s =>
    if s.ahead.kind = .rbrace then []
    else
      ⟨expression .lowest, s.next⟩ :: follow (Parse.expression n .lowest) s.next fun _ m =>
        onlyIf (m.ahead.kind = .colon) <|
          ⟨expression .lowest, m.next.next⟩ ::
            follow (Parse.expression n .lowest) m.next.next fun _ m' =>
              if m'.ahead.kind = .rbrace then [⟨pairs, m'⟩]
              else onlyIf (m'.ahead.kind = .comma) [⟨pairs, m'.next⟩]

namespace Call

def calls (n : Nat) (c : Call) : List Call := c.job.calls n c.state

def Finishes (n : Nat) (c : Call) : Prop := c.job.outcome n c.state ≠ .error .exhausted

end Call

theorem forall_mem_follow {p : Parse α} {s : State} {f : α → State → List Call} {P : Call → Prop} :
    (∀ c ∈ follow p s f, P c) ↔ ∀ a m, p.run s = .ok (a, m) → ∀ c ∈ f a m, P c := by
  unfold follow
  cases p.run s with
  | error e => simp
  | ok r => exact ⟨fun h a m heq => by cases heq; exact h, fun h => h _ _ rfl⟩

theorem follow_nil (p : Parse α) (s : State) : follow p s (fun _ _ => []) = [] := by
  unfold follow
  split <;> rfl

theorem forall_mem_onlyIf {c : Prop} [Decidable c] {cs : List Call} {P : Call → Prop} :
    (∀ d ∈ onlyIf c cs, P d) ↔ (c → ∀ d ∈ cs, P d) := by
  unfold onlyIf
  split <;> simp [*]

/-- The run gets to its end exactly if these calls do. -/
def HingesOn (n : Nat) (p : Parse α) (s : State) (cs : List Call) : Prop :=
  Finishes p s ↔ ∀ d ∈ cs, d.Finishes n

namespace HingesOn

variable {n : Nat} {s : State} {cs ds : List Call}

theorem none {p : Parse α} (h : Finishes p s) : HingesOn n p s [] := ⟨nofun, fun _ => h⟩

theorem pure (a : α) : HingesOn n (pure a : Parse α) s [] := none (finishes_pure a s)

theorem current {f : Token → Parse α} (h : HingesOn n (f s.current) s cs) :
    HingesOn n (current >>= f) s cs := h

theorem ahead {f : Token → Parse α} (h : HingesOn n (f s.ahead) s cs) :
    HingesOn n (ahead >>= f) s cs := h

theorem name {f : Node → Parse α} (h : HingesOn n (f (.ident s.current s.current.literal)) s cs) :
    HingesOn n (name >>= f) s cs := h

theorem advance {f : Unit → Parse α} (h : HingesOn n (f ()) s.next cs) :
    HingesOn n (advance >>= f) s cs := h

theorem ite {c : Prop} [Decidable c] {x y : Parse α} (hx : HingesOn n x s cs)
    (hy : HingesOn n y s ds) : HingesOn n (if c then x else y) s (if c then cs else ds) := by
  split
  · exact hx
  · exact hy

theorem expect {k : Kind} {f : Bool → Parse α} {a : α} (h : HingesOn n (f true) s.next cs)
    (hf : f false = Pure.pure a) :
    HingesOn n (expect k >>= f) s (onlyIf (s.ahead.kind = k) cs) := by
  unfold HingesOn Parse.Finishes onlyIf
  rw [run_expect_bind]
  split
  · exact h
  · rw [hf]
    exact pure a

theorem close {k : Kind} {g : Bool → α} :
    HingesOn n (Parse.expect k >>= fun found => Pure.pure (g found)) s [] := by
  unfold HingesOn Parse.Finishes
  rw [run_expect_bind]
  split
  · exact pure (g true)
  · exact pure (g false)

theorem endStatement (a : α) : HingesOn n (endStatement >>= fun _ => Pure.pure a) s [] := by
  unfold HingesOn Parse.Finishes
  rw [run_endStatement_bind]
  split
  · exact pure a
  · exact pure a

theorem integer (f : Node → α) : HingesOn n (integer >>= fun e => Pure.pure (f e)) s [] := by
  refine none (finishes_bind.mpr ⟨?_, fun e m _ => finishes_pure (f e) m⟩)
  unfold Parse.Finishes
  rw [run_integer]
  split
  · exact nofun
  · split <;> exact nofun

theorem append {x : Parse α} {f : α → Parse β} {g : α → State → List Call} (hx : HingesOn n x s cs)
    (h : ∀ a m, HingesOn n (f a) m (g a m)) : HingesOn n (x >>= f) s (cs ++ follow x s g) := by
  rw [HingesOn, finishes_bind, List.forall_mem_append, forall_mem_follow]
  exact and_congr hx (forall_congr' fun a => forall_congr' fun m => imp_congr_right fun _ => h a m)

theorem tail {x : Parse α} {c : Call} (hc : c.job.outcome n c.state = outcome x s) :
    HingesOn n x s [c] := by
  rw [HingesOn, List.forall_mem_singleton, Call.Finishes, hc, outcome_ne_exhausted]

theorem call {x : Parse α} {f : α → Parse β} {c : Call} {g : α → State → List Call}
    (hc : c.job.outcome n c.state = outcome x s) (h : ∀ a m, HingesOn n (f a) m (g a m)) :
    HingesOn n (x >>= f) s (c :: follow x s g) :=
  append (tail hc) h

theorem last {x : Parse α} {f : α → Parse β} {c : Call}
    (hc : c.job.outcome n c.state = outcome x s) (h : ∀ a m, HingesOn n (f a) m []) :
    HingesOn n (x >>= f) s [c] := by
  have hcall := call (g := fun _ _ => []) hc h
  rwa [follow_nil] at hcall

theorem finish {x : Parse α} {f : α → β} {c : Call}
    (hc : c.job.outcome n c.state = outcome x s) :
    HingesOn n (x >>= fun a => Pure.pure (f a)) s [c] :=
  last hc fun a _ => pure (f a)

end HingesOn

section Step

variable {n : Nat} {s : State}

theorem hingesOn_statements (inBlock : Bool) :
    HingesOn n (statements (n + 1) inBlock) s ((Job.statements inBlock).calls n s) := by
  refine .current (.ite (.pure _) (.call rfl fun e m => .advance ?_))
  exact .finish rfl

theorem hingesOn_statement : HingesOn n (statement (n + 1)) s (Job.statement.calls n s) := by
  refine .current ?_
  rw [Job.calls]
  cases s.current.kind with
  | letWord =>
    refine .expect (.name (.expect (.advance ?_) rfl)) rfl
    exact .last rfl fun _ _ => .endStatement _
  | returnWord => exact .advance (.last rfl fun _ _ => .endStatement _)
  | _ => exact .last rfl fun _ _ => .endStatement _

theorem hingesOn_block : HingesOn n (block (n + 1)) s (Job.block.calls n s) :=
  .current (.advance (.finish rfl))

theorem hingesOn_expression (level : Level) :
    HingesOn n (expression (n + 1) level) s ((Job.expression level).calls n s) := by
  refine .call rfl fun o m => ?_
  cases o with
  | none => exact .pure _
  | some left => exact .tail rfl

theorem hingesOn_operand : HingesOn n (operand (n + 1)) s (Job.operand.calls n s) := by
  refine .current ?_
  rw [Job.calls]
  cases s.current.kind with
  | ident | string | trueWord | falseWord => exact .pure _
  | int => exact .integer _
  | bang | minus => exact .advance (.finish rfl)
  | lparen => exact .advance (.last rfl fun _ _ => .close)
  | ifWord | fnWord | lbracket | lbrace => exact .finish rfl
  | _ => exact .none (finishes_pure _ _)

theorem hingesOn_extend (level : Level) (left : Node) :
    HingesOn n (extend (n + 1) level left) s ((Job.extend level left).calls n s) := by
  refine .ahead (.ite (.advance ?_) (.pure _))
  exact .call rfl fun e m => .tail rfl

theorem hingesOn_extension (t : Token) (left : Node) :
    HingesOn n (extension (n + 1) t left) s ((Job.extension t left).calls n s) := by
  rw [extension, Job.calls]
  cases t.kind with
  | lparen => exact .finish rfl
  | lbracket => exact .advance (.last rfl fun _ _ => .close)
  | _ => exact .advance (.finish rfl)

theorem hingesOn_conditional :
    HingesOn n (conditional (n + 1)) s (Job.conditional.calls n s) := by
  refine .current (.expect (.advance ?_) rfl)
  refine .call rfl fun c m => .expect (.expect ?_ rfl) rfl
  refine .call rfl fun a m' => .ahead (.ite (.advance ?_) (.pure _))
  exact .expect (.finish rfl) rfl

theorem hingesOn_moreParameters :
    HingesOn n (moreParameters (n + 1)) s (Job.moreParameters.calls n s) := by
  refine .ahead (.ite (.advance ?_) .close)
  exact .expect (.name (.finish rfl)) rfl

theorem hingesOn_parameters : HingesOn n (parameters n) s (parameterCalls s) := by
  refine .ahead (.ite (.advance (.pure _)) ?_)
  exact .expect (.name (.finish rfl)) rfl

theorem hingesOn_function : HingesOn n (function (n + 1)) s (Job.function.calls n s) := by
  refine .current (.expect (.append hingesOn_parameters fun ps m => ?_) rfl)
  cases ps with
  | none => exact .pure _
  | some ps => exact .expect (.finish rfl) rfl

theorem hingesOn_expressions (close : Kind) :
    HingesOn n (expressions (n + 1) close) s ((Job.expressions close).calls n s) := by
  refine .ahead (.ite (.advance (.pure _)) (.advance ?_))
  exact .call rfl fun e m => .finish rfl

theorem hingesOn_moreExpressions (close : Kind) :
    HingesOn n (moreExpressions (n + 1) close) s ((Job.moreExpressions close).calls n s) := by
  refine .ahead (.ite (.advance (.advance ?_)) .close)
  exact .call rfl fun e m => .finish rfl

theorem hingesOn_pairs : HingesOn n (pairs (n + 1)) s (Job.pairs.calls n s) := by
  refine .ahead (.ite (.advance (.pure _)) (.advance ?_))
  refine .call rfl fun k m => .expect (.advance ?_) rfl
  refine .call rfl fun v m' => .ahead (.ite (.finish rfl) ?_)
  exact .expect (.finish rfl) rfl

end Step

/-- A call gets to its end exactly if the calls it makes do with a step less. -/
theorem Call.finishes_succ_iff (n : Nat) (c : Call) :
    c.Finishes (n + 1) ↔ ∀ d ∈ c.calls n, d.Finishes n := by
  obtain ⟨job, s⟩ := c
  cases job with
  | statements inBlock => exact outcome_ne_exhausted.trans (hingesOn_statements inBlock)
  | statement => exact outcome_ne_exhausted.trans hingesOn_statement
  | block => exact outcome_ne_exhausted.trans hingesOn_block
  | expression level => exact outcome_ne_exhausted.trans (hingesOn_expression level)
  | operand => exact outcome_ne_exhausted.trans hingesOn_operand
  | extend level left => exact outcome_ne_exhausted.trans (hingesOn_extend level left)
  | extension t left => exact outcome_ne_exhausted.trans (hingesOn_extension t left)
  | conditional => exact outcome_ne_exhausted.trans hingesOn_conditional
  | function => exact outcome_ne_exhausted.trans hingesOn_function
  | moreParameters => exact outcome_ne_exhausted.trans hingesOn_moreParameters
  | expressions close => exact outcome_ne_exhausted.trans (hingesOn_expressions close)
  | moreExpressions close => exact outcome_ne_exhausted.trans (hingesOn_moreExpressions close)
  | pairs => exact outcome_ne_exhausted.trans hingesOn_pairs

theorem length_of_current {s : State} {k : Kind} (h : s.current.kind = k) (hk : k ≠ .eof) :
    0 < s.tokens.length := by
  obtain ⟨ts, cs⟩ := s
  cases ts with
  | nil => exact absurd h.symm hk
  | cons t ts => exact Nat.zero_lt_succ _

/-- The token ahead is not the end of input: two tokens are left at least. -/
theorem length_of_ahead {s : State} {k : Kind} (h : s.ahead.kind = k) (hk : k ≠ .eof) :
    1 < s.tokens.length := by
  have hnext := length_of_current (s := s.next) h hk
  rw [State.tokens_next, List.length_tail] at hnext
  omega

/-- Functions that come before each other where no token is taken up between them. -/
def Job.rank : Job → Nat
  | block => 5
  | statements _ | extension .. => 4
  | statement | expressions _ | pairs => 3
  | expression _ => 2
  | operand => 1
  | extend .. | conditional | function | moreParameters | moreExpressions _ => 0

namespace Call

/-- The number of tokens that a call has still to read. Functions that begin by moving on are done
with the current token. -/
def left (c : Call) : Nat :=
  match c.job with
  | .block | .extension .. | .expressions _ | .pairs => c.state.next.tokens.length
  | _ => c.state.tokens.length

def weight (c : Call) : Nat := 6 * c.left + c.job.rank

end Call

section Weight

variable {n : Nat} {s : State}

theorem length_next (s : State) : s.next.tokens.length = s.tokens.length - 1 := List.length_tail

theorem length_le_of_run {p : Parse α} (hp : Keeps (fun s s' => s'.tokens <:+ s.tokens) p)
    {m : State} {a : α} (h : p.run s = .ok (a, m)) : m.tokens.length ≤ s.tokens.length :=
  (hp _ _ _ h).length_le

theorem weight_lt_statements (inBlock : Bool) :
    ∀ d ∈ (Job.statements inBlock).calls n s, d.weight < Call.weight ⟨.statements inBlock, s⟩ := by
  rw [Job.calls]
  split
  · simp
  · next hend =>
    have hpos := length_of_current rfl fun heof => hend (.inl heof)
    rw [List.forall_mem_cons, forall_mem_follow]
    simp only [List.forall_mem_singleton, Call.weight, Call.left, Job.rank, length_next]
    refine ⟨by omega, fun e m he => ?_⟩
    have hm := length_le_of_run (keeping kept_suffix n).statement he
    omega

theorem weight_lt_statement :
    ∀ d ∈ Job.statement.calls n s, d.weight < Call.weight ⟨.statement, s⟩ := by
  rw [Job.calls]
  split
  all_goals
    simp only [forall_mem_onlyIf, List.forall_mem_singleton, Call.weight, Call.left, Job.rank,
      length_next]
    omega

theorem weight_lt_block : ∀ d ∈ Job.block.calls n s, d.weight < Call.weight ⟨.block, s⟩ := by
  simp only [Job.calls, List.forall_mem_singleton, Call.weight, Call.left, Job.rank]
  omega

theorem weight_lt_expression (level : Level) :
    ∀ d ∈ (Job.expression level).calls n s, d.weight < Call.weight ⟨.expression level, s⟩ := by
  simp only [Job.calls, List.forall_mem_cons, forall_mem_follow, Call.weight, Call.left, Job.rank]
  refine ⟨by omega, fun o m ho => ?_⟩
  have hm := length_le_of_run (keeping kept_suffix n).operand ho
  cases o with
  | none => simp
  | some e =>
    simp only [List.forall_mem_singleton]
    omega

theorem weight_lt_operand : ∀ d ∈ Job.operand.calls n s, d.weight < Call.weight ⟨.operand, s⟩ := by
  rw [Job.calls]
  cases hk : s.current.kind with
  | bang | minus | lparen | ifWord | fnWord | lbracket | lbrace =>
    have hpos := length_of_current hk (by decide)
    simp only [List.forall_mem_singleton, Call.weight, Call.left, Job.rank, length_next]
    omega
  | _ => simp

theorem weight_lt_extend (level : Level) (left : Node) :
    ∀ d ∈ (Job.extend level left).calls n s, d.weight < Call.weight ⟨.extend level left, s⟩ := by
  rw [Job.calls, forall_mem_onlyIf, List.forall_mem_cons, forall_mem_follow]
  simp only [List.forall_mem_singleton, Call.weight, Call.left, Job.rank, length_next]
  intro hlt
  have hne : s.ahead.kind ≠ .eof := by
    intro heq
    rw [heq] at hlt
    exact Level.ne_lowest_of_rank_lt hlt rfl
  have hpos := length_of_ahead rfl hne
  refine ⟨by omega, fun e m he => ?_⟩
  have hm := length_le_of_run ((keeping kept_suffix n).extension _ _) he
  rw [length_next] at hm
  omega

theorem weight_lt_extension (t : Token) (left : Node) :
    ∀ d ∈ (Job.extension t left).calls n s, d.weight < Call.weight ⟨.extension t left, s⟩ := by
  rw [Job.calls]
  split
  all_goals
    simp only [List.forall_mem_singleton, Call.weight, Call.left, Job.rank]
    omega

theorem weight_lt_conditional :
    ∀ d ∈ Job.conditional.calls n s, d.weight < Call.weight ⟨.conditional, s⟩ := by
  simp only [Job.calls, forall_mem_onlyIf, List.forall_mem_cons, forall_mem_follow,
    List.not_mem_nil, false_implies, implies_true, and_true, Call.weight, Call.left, Job.rank,
    length_next]
  intro hopening
  have hpos := length_of_ahead hopening (by decide)
  refine ⟨by omega, fun c m hc _ _ => ?_⟩
  have hm := length_le_of_run ((keeping kept_suffix n).expression _) hc
  simp only [length_next] at hm
  refine ⟨by omega, fun a m' ha _ _ => ?_⟩
  have hm' := length_le_of_run (keeping kept_suffix n).block ha
  simp only [length_next] at hm'
  omega

theorem weight_lt_function :
    ∀ d ∈ Job.function.calls n s, d.weight < Call.weight ⟨.function, s⟩ := by
  simp only [Job.calls, parameterCalls, forall_mem_onlyIf, List.forall_mem_append,
    forall_mem_follow]
  intro hopening
  have hpos := length_of_ahead hopening (by decide)
  refine ⟨?_, fun ps m hps => ?_⟩
  · split
    · simp
    · simp only [forall_mem_onlyIf, List.forall_mem_singleton, Call.weight, Call.left, Job.rank,
        length_next]
      omega
  · have hm := length_le_of_run (keeps_parameters kept_suffix n) hps
    simp only [length_next] at hm
    cases ps with
    | none => simp
    | some ps =>
      simp only [forall_mem_onlyIf, List.forall_mem_singleton, Call.weight, Call.left, Job.rank,
        length_next]
      omega

theorem weight_lt_moreParameters :
    ∀ d ∈ Job.moreParameters.calls n s, d.weight < Call.weight ⟨.moreParameters, s⟩ := by
  simp only [Job.calls, forall_mem_onlyIf, List.forall_mem_singleton, Call.weight, Call.left,
    Job.rank, length_next]
  intro hcomma _
  have hpos := length_of_ahead hcomma (by decide)
  omega

theorem weight_lt_expressions (close : Kind) :
    ∀ d ∈ (Job.expressions close).calls n s, d.weight < Call.weight ⟨.expressions close, s⟩ := by
  rw [Job.calls]
  split
  · simp
  · rw [List.forall_mem_cons, forall_mem_follow]
    simp only [List.forall_mem_singleton, Call.weight, Call.left, Job.rank, length_next]
    refine ⟨by omega, fun e m he => ?_⟩
    have hm := length_le_of_run ((keeping kept_suffix n).expression _) he
    rw [length_next] at hm
    omega

theorem weight_lt_moreExpressions (close : Kind) :
    ∀ d ∈ (Job.moreExpressions close).calls n s,
      d.weight < Call.weight ⟨.moreExpressions close, s⟩ := by
  rw [Job.calls, forall_mem_onlyIf, List.forall_mem_cons, forall_mem_follow]
  simp only [List.forall_mem_singleton, Call.weight, Call.left, Job.rank, length_next]
  intro hcomma
  have hpos := length_of_ahead hcomma (by decide)
  refine ⟨by omega, fun e m he => ?_⟩
  have hm := length_le_of_run ((keeping kept_suffix n).expression _) he
  rw [length_next, length_next] at hm
  omega

theorem weight_lt_pairs : ∀ d ∈ Job.pairs.calls n s, d.weight < Call.weight ⟨.pairs, s⟩ := by
  rw [Job.calls]
  split
  · simp
  · simp only [forall_mem_onlyIf, List.forall_mem_cons, forall_mem_follow, Call.weight, Call.left,
      Job.rank, length_next]
    refine ⟨by omega, fun k m hk hcolon => ?_⟩
    have hm := length_le_of_run ((keeping kept_suffix n).expression _) hk
    have hpos := length_of_ahead hcolon (by decide)
    simp only [length_next] at hm
    refine ⟨by omega, fun v m' hv => ?_⟩
    have hm' := length_le_of_run ((keeping kept_suffix n).expression _) hv
    simp only [length_next] at hm'
    split
    · simp only [List.forall_mem_singleton]
      omega
    · simp only [forall_mem_onlyIf, List.forall_mem_singleton, length_next]
      omega

end Weight

namespace Call

variable {n : Nat} {c d : Call}

theorem weight_lt_of_mem_calls (h : d ∈ c.calls n) : d.weight < c.weight := by
  obtain ⟨job, s⟩ := c
  cases job with
  | statements inBlock => exact weight_lt_statements inBlock d h
  | statement => exact weight_lt_statement d h
  | block => exact weight_lt_block d h
  | expression level => exact weight_lt_expression level d h
  | operand => exact weight_lt_operand d h
  | extend level left => exact weight_lt_extend level left d h
  | extension t left => exact weight_lt_extension t left d h
  | conditional => exact weight_lt_conditional d h
  | function => exact weight_lt_function d h
  | moreParameters => exact weight_lt_moreParameters d h
  | expressions close => exact weight_lt_expressions close d h
  | moreExpressions close => exact weight_lt_moreExpressions close d h
  | pairs => exact weight_lt_pairs d h

/-- More steps than the weight of a call are enough for it. -/
theorem finishes_of_weight_lt (h : c.weight < n) : c.Finishes n := by
  induction n generalizing c with
  | zero => omega
  | succ n ih =>
    refine (finishes_succ_iff n c).mpr fun d hd => ih ?_
    have hlt := weight_lt_of_mem_calls hd
    omega

end Call

end TreeWalk.Parse
