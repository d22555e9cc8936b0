import Mathlib.Data.List.TakeWhile
import TreeWalk.Proofs.Lexing
import TreeWalk.Token.Cursor
import TreeWalk.Token.Scanner

/-! What a scanner answers and how far it goes is told by the text that is left alone, wherever it
stands. A cursor, which reads the same source one character at a time, answers the same and stands
at the same place. -/
namespace TreeWalk

structure Reader (σ : Type) where
  next : σ → Token × σ
  peek? : σ → Option Char
  read : σ → σ
  skipGaps : σ → σ
  drain : σ → List Token × σ

def Scanner.reader : Reader Scanner := ⟨next, peek?, read, skipGaps, drain⟩

def Cursor.reader : Reader Cursor := ⟨next, peek?, read, skipGaps, drain⟩

namespace Reader

inductive Call where
  | next | peek | read | skipGaps | drain
  deriving DecidableEq, Repr

inductive Answer where
  | token (t : Token)
  | tokens (ts : List Token)
  | char (c : Option Char)
  | none
  deriving DecidableEq, Repr

def Answer.handed : Answer → List Token
  | token t => [t]
  | tokens ts => ts
  | _ => []

variable {σ : Type} (r : Reader σ)

def perform (s : σ) : Call → Answer × σ
  | .next => (.token (r.next s).1, (r.next s).2)
  | .peek => (.char (r.peek? s), s)
  | .read => (.none, r.read s)
  | .skipGaps => (.none, r.skipGaps s)
  | .drain => (.tokens (r.drain s).1, (r.drain s).2)

def run (s : σ) : List Call → List Answer × σ
  | [] => ([], s)
  | call :: calls =>
    let first := r.perform s call
    let more := run first.2 calls
    (first.1 :: more.1, more.2)

end Reader

namespace Scanner

open Reader (Call)

variable {s s' : Scanner} {t : Token}

theorem token?_eq_none_iff : s.token? = none ↔ ∀ c ∈ s.rest, isGap c := by
  rw [← List.dropWhile_eq_nil_iff, ← rest_skipGaps]
  unfold token?
  split
  · next hnil => simp [hnil]
  · next hcons => simp [hcons]

/-- What is cut off is told by what is left alone, is never the end of input and takes some
characters with it. -/
theorem token?_eq_some (h : s.token? = some (t, s')) : t.kind ≠ .eof ∧
    ∃ m, 0 < m ∧ ∀ n, token? ⟨n, s.rest⟩ = some (t, ⟨n + m, s.rest.drop m⟩) := by
  unfold token? at h
  split at h
  · cases h
  · next c cs hcons =>
    cases h
    refine ⟨Lexeme.kind_start_ne_eof c cs,
      (s.rest.takeWhile isGap).length + ((Lexeme.start c cs).more + 1), by omega, fun n => ?_⟩
    have hleft : (skipGaps ⟨n, s.rest⟩).rest = c :: cs := hcons
    unfold token?
    rw [hleft]
    simp only [skipGaps, advance, List.drop_drop, Nat.add_assoc]

theorem next_of_none (h : s.token? = none) : s.next = (.eof, s.skipGaps) := by
  rw [next, h]
  rfl

theorem next_of_some (h : s.token? = some (t, s')) : s.next = (t, s') := by
  rw [next, h]
  rfl

theorem drain_of_none (h : s.token? = none) : s.drain = ([.eof], s.skipGaps) := by
  rw [drain]
  split
  · rfl
  · next hsome =>
    rw [h] at hsome
    cases hsome

theorem drain_of_some (h : s.token? = some (t, s')) :
    s.drain = (t :: s'.drain.1, s'.drain.2) := by
  rw [drain]
  split
  · next hnone =>
    rw [h] at hnone
    cases hnone
  · next hsome =>
    rw [h] at hsome
    cases hsome
    rfl

/-- Wherever the scanner stands, what it answers and how far it goes is the same. -/
def Moves {α : Type} (f : Scanner → α × Scanner) (rest : List Char) (a : α) (m : Nat) : Prop :=
  ∀ n, f ⟨n, rest⟩ = (a, ⟨n + m, rest.drop m⟩)

theorem exists_moves_next (rest : List Char) : ∃ t m, Moves next rest t m := by
  cases htoken : token? ⟨0, rest⟩ with
  | none =>
    have hgaps := token?_eq_none_iff.mp htoken
    exact ⟨.eof, (rest.takeWhile isGap).length, fun n =>
      next_of_none (token?_eq_none_iff.mpr hgaps)⟩
  | some cut =>
    obtain ⟨-, m, -, hcut⟩ := token?_eq_some htoken
    exact ⟨cut.1, m, fun n => next_of_some (hcut n)⟩

theorem exists_moves_drain (rest : List Char) : ∃ ts m, Moves drain rest ts m := by
  -- on what is left, which is shorter behind each token
  induction hlength : rest.length using Nat.strongRecOn generalizing rest with
  | ind k ih =>
    cases htoken : token? ⟨0, rest⟩ with
    | none =>
      have hgaps := token?_eq_none_iff.mp htoken
      exact ⟨[.eof], (rest.takeWhile isGap).length,
        fun n => drain_of_none (token?_eq_none_iff.mpr hgaps)⟩
    | some cut =>
      obtain ⟨-, m, -, hcut⟩ := token?_eq_some htoken
      have hshorter : (rest.drop m).length < k := hlength ▸ length_rest_lt_of_token? (hcut 0)
      obtain ⟨ts, m', hmore⟩ := ih _ hshorter _ rfl
      refine ⟨cut.1 :: ts, m + m', fun n => ?_⟩
      rw [drain_of_some (hcut n), hmore, List.drop_drop, Nat.add_assoc]

theorem exists_moves_perform (rest : List Char) (call : Call) :
    ∃ a m, Moves (reader.perform · call) rest a m := by
  cases call with
  | next =>
    obtain ⟨t, m, hnext⟩ := exists_moves_next rest
    refine ⟨.token t, m, fun n => ?_⟩
    simp only [Reader.perform, reader, hnext n]
  | peek => exact ⟨.char rest.tail.head?, 0, fun n => rfl⟩
  | read => exact ⟨.none, 1, fun n => rfl⟩
  | skipGaps => exact ⟨.none, (rest.takeWhile isGap).length, fun n => rfl⟩
  | drain =>
    obtain ⟨ts, m, hdrain⟩ := exists_moves_drain rest
    refine ⟨.tokens ts, m, fun n => ?_⟩
    simp only [Reader.perform, reader, hdrain n]

theorem exists_moves_run (rest : List Char) (calls : List Call) :
    ∃ answers m, Moves (reader.run · calls) rest answers m := by
  induction calls generalizing rest with
  | nil => exact ⟨[], 0, fun _ => rfl⟩
  | cons call calls ih =>
    obtain ⟨a, m, hfirst⟩ := exists_moves_perform rest call
    obtain ⟨answers, m', hmore⟩ := ih (rest.drop m)
    refine ⟨a :: answers, m + m', fun n => ?_⟩
    simp only [Reader.run, hfirst n, hmore (n + m), List.drop_drop, Nat.add_assoc]

theorem rest_of_none (h : s.token? = none) : s.skipGaps.rest = [] := by
  rw [rest_skipGaps, List.dropWhile_eq_nil_iff]
  exact token?_eq_none_iff.mp h

theorem next_of_rest_nil (h : s.rest = []) : s.next = (.eof, s) := by
  obtain ⟨n, rest⟩ := s
  subst h
  exact next_of_none rfl

theorem rest_run_of_rest_nil (h : s.rest = []) (calls : List Call) :
    (reader.run s calls).2.rest = [] := by
  obtain ⟨n, rest⟩ := s
  subst h
  obtain ⟨answers, m, hrun⟩ := exists_moves_run [] calls
  have hstate := congrArg (·.2.rest) (hrun n)
  simpa using hstate

theorem rest_drain (s : Scanner) : s.drain.2.rest = [] := by
  fun_induction drain s with
  | case1 s h => exact rest_of_none h
  | case2 s t s' h r ih => exact ih

/-- A call hands out the end of input only where it leaves nothing to read. -/
theorem rest_perform_of_handed {call : Call} (h : .eof ∈ (reader.perform s call).1.handed) :
    (reader.perform s call).2.rest = [] := by
  cases call with
  | next =>
    show s.next.2.rest = []
    have heof : .eof = s.next.1 := List.mem_singleton.mp h
    cases htoken : s.token? with
    | none =>
      rw [next_of_none htoken]
      exact rest_of_none htoken
    | some cut =>
      rw [next_of_some htoken] at heof
      exact absurd (congrArg Token.kind heof.symm) (token?_eq_some htoken).1
  | drain => exact rest_drain s
  | peek | read | skipGaps => cases h

theorem rest_run_of_handed {calls : List Call}
    (h : ∃ a ∈ (reader.run s calls).1, .eof ∈ a.handed) : (reader.run s calls).2.rest = [] := by
  induction calls generalizing s with
  | nil =>
    obtain ⟨a, ha, -⟩ := h
    cases ha
  | cons call calls ih =>
    obtain ⟨a, ha, heof⟩ := h
    rcases List.mem_cons.mp ha with rfl | ha
    · exact rest_run_of_rest_nil (rest_perform_of_handed heof) calls
    · exact ih ⟨a, ha, heof⟩

theorem length_drain_le (s : Scanner) : s.drain.1.length ≤ s.rest.length + 1 := by
  fun_induction drain s with
  | case1 s h => exact Nat.le_add_left 1 s.rest.length
  | case2 s t s' h r ih =>
    have hshorter := length_rest_lt_of_token? h
    have hmore : r.1.length ≤ s'.rest.length + 1 := ih
    rw [List.length_cons]
    omega

/-- A scanner is drained by asking for the next token as often as there are tokens. -/
theorem run_next_drain (s : Scanner) :
    reader.run s (List.replicate s.drain.1.length .next) = (s.drain.1.map .token, s.drain.2) := by
  fun_induction drain s with
  | case1 s h =>
    have hnext := next_of_none h
    simp [Reader.run, Reader.perform, reader, hnext]
  | case2 s t s' h r ih =>
    have hfirst : reader.perform s .next = (.token t, s') := by
      simp only [Reader.perform, reader, next_of_some h]
    have hmore : reader.run s' (List.replicate r.1.length .next) = (r.1.map .token, r.2) := ih
    simp only [List.length_cons, List.replicate_succ, Reader.run, hfirst, hmore, List.map_cons]

end Scanner

namespace Cursor

open Reader (Call)

variable {source : List Char} {n : Nat}

def standing (source : List Char) (n : Nat) : Cursor := ⟨source, n, n + 1, source[n]?⟩

theorem ofText_eq (text : String) : ofText text = standing text.toList 0 := rfl

theorem read_standing : (standing source n).read = standing source (n + 1) := rfl

theorem char?_standing : (standing source n).char? = (source.drop n).head? := List.head?_drop.symm

theorem peek?_standing : (standing source n).peek? = (source.drop n).tail.head? := by
  rw [List.tail_drop, List.head?_drop]
  rfl

theorem drop_succ {c : Char} {cs : List Char} (h : source.drop n = c :: cs) :
    source.drop (n + 1) = cs := by
  rw [← List.tail_drop, h, List.tail_cons]

/-- A cursor moves on over the longest run of the class. -/
theorem readWhile_standing (p : Char → Bool) (source : List Char) (n : Nat) :
    (standing source n).readWhile p =
      standing source (n + ((source.drop n).takeWhile p).length) := by
  induction hleft : source.drop n generalizing n with
  | nil =>
    have hend : (standing source n).char? = none := by rw [char?_standing, hleft, List.head?_nil]
    rw [readWhile_of_end (by simp [hend])]
    rfl
  | cons c cs ih =>
    have hchar : (standing source n).char? = some c := by
      rw [char?_standing, hleft, List.head?_cons]
    by_cases hp : p c
    · rw [readWhile_of_pos hchar hp, read_standing, ih (n + 1) (drop_succ hleft),
        List.takeWhile_cons_of_pos hp, List.length_cons, Nat.add_right_comm, Nat.add_assoc]
    · rw [readWhile_of_end (by simpa [hchar] using hp), List.takeWhile_cons_of_neg hp]
      rfl

theorem slice_standing (p : Char → Bool) (source : List Char) (n m : Nat) :
    (standing source m).slice n (n + ((source.drop n).takeWhile p).length) =
      String.ofList ((source.drop n).takeWhile p) := by
  have hprefix := List.prefix_iff_eq_take.mp (List.takeWhile_prefix p (l := source.drop n))
  simp only [slice, standing, List.extract_eq_take_drop, Nat.add_sub_cancel_left]
  rw [← hprefix]

theorem readWhile_run {p : Char → Bool} {c : Char} {cs : List Char} (h : source.drop n = c :: cs)
    (hp : p c) :
    (standing source n).readWhile p = standing source (n + ((cs.takeWhile p).length + 1)) ∧
      (standing source n).slice n (n + ((cs.takeWhile p).length + 1)) =
        String.ofList (c :: cs.takeWhile p) := by
  have hrun : (source.drop n).takeWhile p = c :: cs.takeWhile p := by
    rw [h, List.takeWhile_cons_of_pos hp]
  have hmove := readWhile_standing p source n
  have hslice := slice_standing p source n n
  rw [hrun, List.length_cons] at hmove hslice
  exact ⟨hmove, hslice⟩

theorem start_standing {c : Char} {cs : List Char} (h : source.drop n = c :: cs) :
    (standing source n).start c =
      ((Lexeme.start c cs).token, standing source (n + ((Lexeme.start c cs).more + 1))) := by
  have hpeek : (standing source n).peek? = cs.head? := by rw [peek?_standing, h, List.tail_cons]
  have hposition (m : Nat) : (standing source m).position = m := rfl
  unfold start Lexeme.start
  split
  · next hletter =>
    obtain ⟨hmove, hslice⟩ := readWhile_run h hletter
    simp only [Lexeme.run, hmove, hposition, hslice]
  split
  · next hdigit =>
    obtain ⟨hmove, hslice⟩ := readWhile_run h hdigit
    simp only [Lexeme.run, hmove, hposition, hslice]
  split
  · have hmove := readWhile_standing (!isQuote ·) source (n + 1)
    have hslice := slice_standing (!isQuote ·) source (n + 1) n
    rw [drop_succ h] at hmove hslice
    simp only [Lexeme.quoted, read_standing, hmove, hposition, hslice]
    rw [Nat.add_right_comm n 1]
    rfl
  · rw [Lexeme.symbol, hpeek]
    split
    · rfl
    split
    · rfl
    · rfl

/-- A cursor gives the token that a scanner gives, and stands where the scanner stands then. -/
theorem next_standing (source : List Char) (n : Nat) :
    let r := Scanner.next ⟨n, source.drop n⟩
    (standing source n).next = (r.1, standing source r.2.position) := by
  let k := ((source.drop n).takeWhile isGap).length
  have hskip : (standing source n).skipGaps = standing source (n + k) :=
    readWhile_standing isGap source n
  have hrest : (Scanner.skipGaps ⟨n, source.drop n⟩).rest = source.drop (n + k) := List.drop_drop
  have hchar : (standing source n).skipGaps.char? = (source.drop (n + k)).head? := by
    rw [hskip, char?_standing]
  intro r
  cases hleft : source.drop (n + k) with
  | nil =>
    rw [hleft] at hrest hchar
    have hnone : Scanner.token? ⟨n, source.drop n⟩ = none := by rw [Scanner.token?, hrest]
    have hnext : r = _ := Scanner.next_of_none hnone
    rw [next_of_none hchar, hskip, hnext]
    rfl
  | cons c cs =>
    rw [hleft] at hrest hchar
    have hsome : Scanner.token? ⟨n, source.drop n⟩ = some ((Lexeme.start c cs).token,
        (Scanner.skipGaps ⟨n, source.drop n⟩).advance ((Lexeme.start c cs).more + 1)) := by
      rw [Scanner.token?, hrest]
    have hnext : r = _ := Scanner.next_of_some hsome
    rw [next_of_some hchar, hskip, start_standing hleft, hnext]
    rfl

theorem drain_standing (source : List Char) (n : Nat) :
    let r := Scanner.drain ⟨n, source.drop n⟩
    (standing source n).drain = (r.1, standing source r.2.position) := by
  induction hlength : (source.drop n).length using Nat.strongRecOn generalizing n with
  | ind k ih =>
    have hnext := next_standing source n
    cases htoken : Scanner.token? ⟨n, source.drop n⟩ with
    | none =>
      rw [Scanner.next_of_none htoken] at hnext
      have heof : (standing source n).next.1.kind = .eof := by rw [hnext]; rfl
      rw [Scanner.drain_of_none htoken, drain_of_eof heof, hnext]
    | some cut =>
      obtain ⟨hkind, m, -, hcut⟩ := Scanner.token?_eq_some htoken
      have hsome := hcut n
      rw [List.drop_drop] at hsome
      rw [Scanner.next_of_some hsome] at hnext
      have hne : (standing source n).next.1.kind ≠ .eof := by rw [hnext]; exact hkind
      have hshorter : (source.drop (n + m)).length < k :=
        hlength ▸ Scanner.length_rest_lt_of_token? hsome
      have hmore := ih _ hshorter (n + m) rfl
      simp only [Scanner.drain_of_some hsome, drain_of_ne_eof hne, hnext, hmore]

theorem perform_standing (source : List Char) (n : Nat) (call : Call) :
    let r := Scanner.reader.perform ⟨n, source.drop n⟩ call
    reader.perform (standing source n) call = (r.1, standing source r.2.position) := by
  cases call with
  | next =>
    have hnext := next_standing source n
    simp only [Reader.perform, reader, Scanner.reader, hnext]
  | peek => exact congrArg (fun c => (Reader.Answer.char c, standing source n)) peek?_standing
  | read => rfl
  | skipGaps =>
    exact congrArg (Reader.Answer.none, ·) (readWhile_standing isGap source n)
  | drain =>
    have hdrain := drain_standing source n
    simp only [Reader.perform, reader, Scanner.reader, hdrain]

theorem run_standing (source : List Char) (n : Nat) (calls : List Call) :
    let r := Scanner.reader.run ⟨n, source.drop n⟩ calls
    reader.run (standing source n) calls = (r.1, standing source r.2.position) := by
  induction calls generalizing n with
  | nil => rfl
  | cons call calls ih =>
    obtain ⟨a, m, hfirst⟩ := Scanner.exists_moves_perform (source.drop n) call
    have hperform := perform_standing source n call
    have hmore := ih (n + m)
    simp only [hfirst n, List.drop_drop] at hperform hmore ⊢
    simp only [Reader.run, hperform, hmore, hfirst n, List.drop_drop]

end Cursor

namespace Scanner

open Reader (Call)

variable {s : Scanner}

/-- What is left is always the source from the position on. -/
theorem rest_run {source : List Char} (h : s.rest = source.drop s.position) (calls : List Call) :
    (reader.run s calls).2.rest = source.drop (reader.run s calls).2.position := by
  obtain ⟨answers, m, hrun⟩ := exists_moves_run s.rest calls
  have hs : reader.run s calls = _ := hrun s.position
  rw [hs, h, List.drop_drop]

/-- A scanner goes on as a new one of what is left does, from its own position. -/
theorem run_eq_run_ofText (s : Scanner) (calls : List Call) :
    let fresh := reader.run (ofText (String.ofList s.rest)) calls
    (reader.run s calls).1 = fresh.1 ∧
      (reader.run s calls).2.position = s.position + fresh.2.position := by
  obtain ⟨answers, m, hrun⟩ := exists_moves_run s.rest calls
  have hs : reader.run s calls = _ := hrun s.position
  have hfresh := hrun 0
  simp only [ofText, String.toList_ofList, hs, hfresh, Nat.zero_add, and_self]

theorem next_ofText (s : Scanner) : (ofText (String.ofList s.rest)).next.1 = s.next.1 := by
  obtain ⟨t, m, hnext⟩ := exists_moves_next s.rest
  have hs : s.next = _ := hnext s.position
  rw [hs, ofText, String.toList_ofList, hnext]

theorem next_eq_eof_iff : s.next.1 = .eof ↔ ∀ c ∈ s.rest, isGap c := by
  rw [← token?_eq_none_iff]
  cases htoken : s.token? with
  | none => simp [next_of_none htoken]
  | some cut =>
    have hkind := (token?_eq_some htoken).1
    simp only [next_of_some htoken, reduceCtorEq, iff_false]
    exact fun heof => hkind (congrArg Token.kind heof)

theorem position_lt_next (h : ¬ ∀ c ∈ s.rest, isGap c) : s.position < s.next.2.position := by
  cases htoken : s.token? with
  | none => exact absurd (token?_eq_none_iff.mp htoken) h
  | some cut =>
    obtain ⟨-, m, hpos, hcut⟩ := token?_eq_some htoken
    have hnext : s.next = _ := next_of_some (hcut s.position)
    rw [hnext]
    exact Nat.lt_add_of_pos_right hpos

end Scanner

/-- After any calls, past the end too, a scanner shows the characters at its position of the source,
and a cursor has given the same answers and stands at the same place. From there on the scanner
answers as a new one of what is left does. Once the end of input has been handed out it comes again
and again, and draining is asking for the next token until it comes. -/
theorem reading_resumes (source : String) (calls : List Reader.Call) :
    let answers := (Scanner.reader.run (.ofText source) calls).1
    let s := (Scanner.reader.run (.ofText source) calls).2
    let left := source.toList.drop s.position
    s.readPosition = s.position + 1 ∧
    s.char? = source.toList[s.position]? ∧
    (s.char? = none ↔ source.length ≤ s.position) ∧
    s.peek? = source.toList[s.position + 1]? ∧
    Cursor.reader.run (.ofText source) calls =
      (answers, ⟨source.toList, s.position, s.position + 1, source.toList[s.position]?⟩) ∧
    (∀ more, s.position ≤ (Scanner.reader.run s more).2.position) ∧
    (∀ more,
      let fresh := Scanner.reader.run (.ofText (String.ofList left)) more
      let later := Scanner.reader.run s more
      later.1 = fresh.1 ∧ later.2.position = s.position + fresh.2.position) ∧
    s.next.1 = (Scanner.ofText (String.ofList left)).next.1 ∧
    (s.next.1 = .eof ↔ ∀ c ∈ left, isGap c) ∧
    (s.position < s.next.2.position ∨ ∀ c ∈ left, isGap c) ∧
    ((∃ a ∈ answers, .eof ∈ a.handed) → s.next = (.eof, s)) ∧
    (∃ ts, s.drain.1 = ts ++ [.eof] ∧ Proper ts ∧ ts.length ≤ left.length) ∧
    Scanner.reader.run s (List.replicate s.drain.1.length .next) =
      (s.drain.1.map .token, s.drain.2) := by
  intro answers s left
  have hrest : s.rest = left := Scanner.rest_run rfl calls
  have hchar : s.char? = source.toList[s.position]? := by
    rw [Scanner.char?, hrest, List.head?_drop]
  have hcursor := Cursor.run_standing source.toList 0 calls
  rw [← Cursor.ofText_eq] at hcursor
  refine ⟨rfl, hchar, ?_, ?_, hcursor, fun more => ?_, fun more => ?_, ?_, ?_, ?_, fun h => ?_, ?_,
    Scanner.run_next_drain s⟩
  · rw [hchar, List.getElem?_eq_none_iff, String.length_toList]
  · rw [Scanner.peek?, hrest, List.tail_drop, List.head?_drop]
  · rw [(Scanner.run_eq_run_ofText s more).2]
    exact Nat.le_add_right _ _
  · rw [← hrest]
    exact Scanner.run_eq_run_ofText s more
  · rw [← hrest, Scanner.next_ofText]
  · rw [← hrest]
    exact Scanner.next_eq_eof_iff
  · rw [← hrest]
    exact (Classical.em _).symm.imp_left Scanner.position_lt_next
  · exact Scanner.next_of_rest_nil (Scanner.rest_run_of_handed h)
  · have hlength := Scanner.length_drain_le s
    refine ⟨tokenize s.rest, Scanner.drain_fst s, proper_tokenize _, ?_⟩
    rw [Scanner.drain_fst, List.length_append, hrest] at hlength
    rw [hrest]
    exact Nat.le_of_add_le_add_right hlength

/-- A word, a string that is left open and so counts a quote behind the source, one character more,
and then what is left. -/
def callsPastEnd : List Reader.Call := [.peek, .next, .skipGaps, .next, .read, .drain]

theorem reading_resumes_callsPastEnd :
    let r := Scanner.reader.run (.ofText "x \"b") callsPastEnd
    r = ([.char (some ' '), .token ⟨.ident, "x"⟩, .none, .token ⟨.string, "b"⟩, .none,
      .tokens [.eof]], ⟨6, []⟩) ∧
    (∃ a ∈ r.1, .eof ∈ a.handed) ∧ r.2.next = (.eof, r.2) ∧
    Cursor.reader.run (.ofText "x \"b") callsPastEnd = (r.1, ⟨"x \"b".toList, 6, 7, none⟩) := by
  intro r
  have hrun : r = ([.char (some ' '), .token ⟨.ident, "x"⟩, .none, .token ⟨.string, "b"⟩, .none,
      .tokens [.eof]], ⟨6, []⟩) := by decide +kernel
  have hended : ∃ a ∈ r.1, .eof ∈ a.handed := by
    rw [hrun]
    exact ⟨.tokens [.eof], by simp, List.mem_singleton_self _⟩
  obtain ⟨-, -, -, -, hcursor, -, -, -, -, -, hend, -⟩ := reading_resumes "x \"b" callsPastEnd
  have hstands : Cursor.reader.run (.ofText "x \"b") callsPastEnd =
      (r.1, Cursor.standing "x \"b".toList r.2.position) := hcursor
  have hbehind : Cursor.standing "x \"b".toList 6 = ⟨"x \"b".toList, 6, 7, none⟩ := by decide
  refine ⟨hrun, hended, hend hended, ?_⟩
  rw [hstands, ← hbehind, hrun]

end TreeWalk
