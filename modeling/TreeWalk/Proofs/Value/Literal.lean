import TreeWalk.Proofs.Eval.Data
import TreeWalk.Proofs.Spelling

/-! Integers, booleans, arrays and hashes are shown as expressions of the language: a negative
integer as the negation of a numeral, an array and a hash as literals of what they hold. -/
namespace TreeWalk

def Token.numeral (n : Nat) : Token := ⟨.int, toString n⟩

theorem lexical_numeral (n : Nat) : (Token.numeral n).Lexical := by
  have hdigits : (toString n).toList = Nat.toDigits 10 n := Nat.toList_repr
  refine .numeral (fun hempty => ?_) fun c hc => ?_
  · rw [hempty] at hdigits
    exact Nat.toDigits_ne_nil hdigits.symm
  · rw [hdigits] at hc
    exact Nat.isDigit_of_mem_toDigits (by decide) (by decide) hc

/-- A number that is not too great has a short numeral, which denotes it. -/
theorem denotes_numeral {n : Nat} (h : (n : Int) ≤ maxInt) : Denotes (Token.numeral n) n := by
  have hdigits : (Token.numeral n).literal.toList = Nat.toDigits 10 n := Nat.toList_repr
  have hlength : (Nat.toDigits 10 n).length ≤ 19 := by
    rw [Nat.length_toDigits_le_iff (by decide) (by decide)]
    unfold maxInt at h
    omega
  have hvalue : decimalValue (Nat.toDigits 10 n) = n := Nat.ofDigitChars_ten_toDigits
  refine ⟨rfl, ?_, ?_, h⟩
  · rw [hdigits]
    exact Nat.le_trans hlength (by decide)
  · rw [hdigits, hvalue]

theorem spells_numeral (n : Nat) : Spells (toString n) [.numeral n] := by
  have hspelled : (Token.numeral n).spelled = toString n :=
    Token.spelled_of_ne (t := .numeral n) nofun
  exact hspelled ▸ spells_token (lexical_numeral n)

theorem spells_entry {key value : String} {ts us : List Token} (hkey : Spells key ts)
    (hvalue : Spells value us) :
    Spells (key ++ ": " ++ value) (ts ++ Kind.colon.token :: us) := by
  have htext : key ++ ": " ++ value = key ++ ":" ++ (" " ++ value) :=
    String.toList_inj.mp (by simp)
  exact htext ▸ spells_pair hkey hvalue.behind_space

namespace Ordered

variable {κ ν : Type} [DecidableEq κ]

theorem put_of_not_mem {m : Ordered κ ν} {k : κ} (h : k ∉ keys m) (v : ν) :
    m.put k v = m ++ [(k, v)] := by
  induction m with
  | nil => rfl
  | cons e m ih =>
    obtain ⟨hne, hm⟩ := not_or.mp (mt List.mem_cons.mpr h)
    simp [put, Ne.symm hne, ih hm]

/-- Entries under different keys, put in one after the other, come to stand in this order. -/
theorem foldl_put {m es : Ordered κ ν} (h : (keys (m ++ es)).Nodup) :
    es.foldl (fun m e => m.put e.1 e.2) m = m ++ es := by
  induction es generalizing m with
  | nil => simp
  | cons e es ih =>
    have hnew : e.1 ∉ keys m := by
      simp only [keys, List.map_append, List.map_cons, List.nodup_append, List.mem_cons] at h
      exact fun hmem => h.2.2 e.1 hmem e.1 (.inl rfl) rfl
    have happend : m ++ [e] ++ es = m ++ e :: es := by simp
    rw [List.foldl_cons, put_of_not_mem hnew, ih (happend ▸ h), happend]

end Ordered

namespace Value

def entriesOf (pairs : List (Value × Value)) : Ordered HashKey (Value × Value) :=
  pairs.foldl (fun entries p => match p.1.hashKey? with
    | some k => entries.put k p
    | none => entries) []

/-- Every entry stands under the hash key of its key, and no two under the same. -/
structure WellKeyed (entries : Ordered HashKey (Value × Value)) : Prop where
  distinct : (Ordered.keys entries).Nodup
  stored : ∀ e ∈ entries, e.2.1.hashKey? = some e.1

theorem WellKeyed.put {entries : Ordered HashKey (Value × Value)} (h : WellKeyed entries)
    {p : Value × Value} {k : HashKey} (hk : p.1.hashKey? = some k) :
    WellKeyed (entries.put k p) := by
  constructor
  · rw [Ordered.keys_put]
    split
    · exact h.distinct
    · next hnew =>
      refine List.nodup_append.mpr ⟨h.distinct, by simp, fun j hj => ?_⟩
      exact List.forall_mem_singleton.mpr fun heq => hnew (heq ▸ hj)
  · intro e he
    rcases Ordered.mem_put he with rfl | he
    · exact hk
    · exact h.stored e he

theorem entriesOf_spec (pairs : List (Value × Value)) :
    WellKeyed (entriesOf pairs) ∧ ∀ e ∈ entriesOf pairs, e.2 ∈ pairs := by
  refine List.foldlRecOn (motive := fun entries => WellKeyed entries ∧ ∀ e ∈ entries, e.2 ∈ pairs)
    pairs _ ⟨⟨List.nodup_nil, nofun⟩, nofun⟩ fun entries h p hp => ?_
  cases hk : p.1.hashKey? with
  | none => exact h
  | some k =>
    refine ⟨h.1.put hk, fun e he => ?_⟩
    rcases Ordered.mem_put he with rfl | he
    · exact hp
    · exact h.2 e he

/-- The values that have a literal: integers with a negative, booleans, and what is made of them by
array and hash literals. The keys that a hash literal accepts are its integers and booleans. -/
inductive HasLiteral : Value → Prop
  | int {n : Int} (low : minInt < n) (high : n ≤ maxInt) : HasLiteral (.int n)
  | bool (b : Bool) : HasLiteral (.bool b)
  | array {vs : List Value} (elements : ∀ v ∈ vs, HasLiteral v) : HasLiteral (.array vs)
  | hash {pairs : List (Value × Value)} (usable : ∀ p ∈ pairs, p.1.hashKey?.isSome)
      (keys : ∀ p ∈ pairs, HasLiteral p.1) (values : ∀ p ∈ pairs, HasLiteral p.2) :
      HasLiteral (.hash (entriesOf pairs))

/-- Induction on such values, with the entries of hashes in place of the pairs they come from. -/
@[elab_as_elim]
theorem HasLiteral.induct {P : Value → Prop} (int : ∀ n, minInt < n → n ≤ maxInt → P (.int n))
    (bool : ∀ b, P (.bool b)) (array : ∀ vs, (∀ v ∈ vs, P v) → P (.array vs))
    (hash : ∀ es, WellKeyed es → (∀ e ∈ es, P e.2.1) → (∀ e ∈ es, P e.2.2) → P (.hash es))
    {v : Value} (h : v.HasLiteral) : P v := by
  induction h with
  | int low high => exact int _ low high
  | bool b => exact bool b
  | array _ ih => exact array _ ih
  | @hash pairs _ _ _ ih ih' =>
    obtain ⟨hkeyed, hmem⟩ := entriesOf_spec pairs
    exact hash _ hkeyed (fun e he => ih e.2 (hmem e he)) fun e he => ih' e.2 (hmem e he)

mutual

/-- The tokens of the text of a value that has a literal. -/
def tokens : Value → List Token
  | int (.ofNat n) => [.numeral n]
  | int (.negSucc n) => [Kind.minus.token, .numeral (n + 1)]
  | bool b => [if b then Kind.trueWord.token else Kind.falseWord.token]
  | array vs => Kind.lbracket.token :: (commas (tokensEach vs) ++ [Kind.rbracket.token])
  | hash es => Kind.lbrace.token :: (commas (tokensEntries es) ++ [Kind.rbrace.token])
  | _ => []

def tokensEach : List Value → List (List Token)
  | [] => []
  | v :: vs => v.tokens :: tokensEach vs

def tokensEntries : List (HashKey × Value × Value) → List (List Token)
  | [] => []
  | (_, k, v) :: es => (k.tokens ++ Kind.colon.token :: v.tokens) :: tokensEntries es

end

theorem tokensEach_eq_map (vs : List Value) : tokensEach vs = vs.map tokens := by
  induction vs with
  | nil => rfl
  | cons v vs ih => simp [tokensEach, ih]

theorem tokensEntries_eq_map (es : List (HashKey × Value × Value)) :
    tokensEntries es = es.map fun e => e.2.1.tokens ++ Kind.colon.token :: e.2.2.tokens := by
  induction es with
  | nil => rfl
  | cons e es ih => simp [tokensEntries, ih]

mutual

def literal : Value → Node
  | int (.ofNat n) => .intLit (.numeral n) n
  | int (.negSucc n) => .unary Kind.minus.token "-" (.intLit (.numeral (n + 1)) (n + 1))
  | bool b => .boolLit (if b then Kind.trueWord.token else Kind.falseWord.token) b
  | array vs => .arrayLit Kind.lbracket.token (literalEach vs)
  | hash es => .hashLit Kind.lbrace.token (literalEntries es)
  | _ => .missing

def literalEach : List Value → List Node
  | [] => []
  | v :: vs => v.literal :: literalEach vs

def literalEntries : List (HashKey × Value × Value) → List (Node × Node)
  | [] => []
  | (_, k, v) :: es => (k.literal, v.literal) :: literalEntries es

end

theorem literalEach_eq_map (vs : List Value) : literalEach vs = vs.map literal := by
  induction vs with
  | nil => rfl
  | cons v vs ih => simp [literalEach, ih]

theorem literalEntries_eq_map (es : List (HashKey × Value × Value)) :
    literalEntries es = es.map fun e => (e.2.1.literal, e.2.2.literal) := by
  induction es with
  | nil => rfl
  | cons e es ih => simp [literalEntries, ih]

variable {v : Value}

theorem inspect_ofNat (n : Nat) : (int (.ofNat n)).inspect = toString n := by
  rw [inspect]
  rfl

theorem inspect_negSucc (n : Nat) : (int (.negSucc n)).inspect = "-" ++ toString (n + 1) := by
  rw [inspect]
  rfl

theorem HasLiteral.spells_inspect (h : v.HasLiteral) : Spells v.inspect v.tokens := by
  refine HasLiteral.induct (fun n _ _ => ?_) (fun b => ?_) (fun vs ih => ?_)
    (fun es _ ih ih' => ?_) h
  · cases n with
    | ofNat n =>
      rw [inspect_ofNat, tokens]
      exact spells_numeral n
    | negSucc n =>
      rw [inspect_negSucc, tokens]
      exact spells_minus (spells_numeral (n + 1))
  · cases b with
    | true => exact spells_token (Kind.lexical_token (k := .trueWord) rfl)
    | false => exact spells_token (Kind.lexical_token (k := .falseWord) rfl)
  · simp only [inspect, tokens, inspects_eq_map, tokensEach_eq_map]
    refine spells_enclosed (o := '[') (c := ']') ?_ rfl (by decide) rfl (by decide)
    rw [List.forall₂_map_left_iff, List.forall₂_map_right_iff]
    exact List.forall₂_same.mpr ih
  · simp only [inspect, tokens, inspectEntries_eq_map, tokensEntries_eq_map]
    refine spells_enclosed (o := '\x7b') (c := '\x7d') ?_ rfl (by decide) rfl (by decide)
    rw [List.forall₂_map_left_iff, List.forall₂_map_right_iff]
    exact List.forall₂_same.mpr fun e he => spells_entry (ih e he) (ih' e he)

theorem HasLiteral.readsAs_literal (h : v.HasLiteral) : ReadsAs v.tokens v.literal := by
  refine HasLiteral.induct (fun n low high => ?_) (fun b => ?_) (fun vs ih => ?_)
    (fun es _ ih ih' => ?_) h
  · cases n with
    | ofNat n => exact .of_closed fun _ => .int (denotes_numeral high)
    | negSucc n =>
      have hle : ((n + 1 : Nat) : Int) ≤ maxInt := by
        unfold minInt at low
        unfold maxInt
        omega
      exact .of_tight fun _ => .unary rfl ⟨none, by decide, .int (denotes_numeral hle)⟩
  · cases b with
    | true => exact .of_closed fun _ => .true rfl
    | false => exact .of_closed fun _ => .false rfl
  · have hparts : List.Forall₂ ReadsAs (vs.map tokens) (vs.map literal) := by
      rw [List.forall₂_map_left_iff, List.forall₂_map_right_iff]
      exact List.forall₂_same.mpr ih
    rw [tokens, literal, tokensEach_eq_map, literalEach_eq_map]
    exact .of_closed (reads_array hparts)
  · have hparts : List.Forall₂ (fun part p => ReadsAs part.1 p.1 ∧ ReadsAs part.2 p.2)
        (es.map fun e => (e.2.1.tokens, e.2.2.tokens))
        (es.map fun e => (e.2.1.literal, e.2.2.literal)) := by
      rw [List.forall₂_map_left_iff, List.forall₂_map_right_iff]
      exact List.forall₂_same.mpr fun e he => ⟨ih e he, ih' e he⟩
    have hread := ReadsAs.of_closed (reads_hash hparts)
    rw [List.map_map] at hread
    rw [tokens, literal, tokensEntries_eq_map, literalEntries_eq_map]
    exact hread

/-- The text of such a value is a program of one statement, its literal. -/
theorem HasLiteral.parse_inspect (h : v.HasLiteral) :
    parse v.inspect = .ok (.program [.exprStmt (front v.tokens) v.literal], []) := by
  obtain ⟨top, hread⟩ := h.readsAs_literal [] (by decide)
  rw [List.append_nil] at hread
  have hstatement := Reads.exprStmt hread (.bare (by decide) rfl)
  unfold parse
  rw [h.spells_inspect.ofText]
  exact parseTokens_of_reads (.program (.cons hstatement .nil))

/-- The least integer has no literal: without its sign it is too great for a numeral. -/
example : (parse (int minInt).inspect).toOption.map (fun r => r.2.isEmpty) = some false := by cbv

end Value

end TreeWalk
