import TreeWalk.Token.Lexeme

/-! A cursor goes along a source one character at a time. A word, a numeral or a string is the slice
of the source from where it stood to where it came to stand. -/
namespace TreeWalk

structure Cursor where
  source : List Char
  position : Nat
  readPosition : Nat
  char? : Option Char
  deriving DecidableEq, Repr

namespace Cursor

def read (c : Cursor) : Cursor where
  source := c.source
  position := c.readPosition
  readPosition := c.readPosition + 1
  char? := c.source[c.readPosition]?

def ofText (source : String) : Cursor := read ⟨source.toList, 0, 0, none⟩

def peek? (c : Cursor) : Option Char := c.source[c.readPosition]?

/-- How many characters there are still to stand on. -/
def remaining (c : Cursor) : Nat := c.char?.toList.length + (c.source.length - c.readPosition)

theorem remaining_read (c : Cursor) : c.read.remaining = c.source.length - c.readPosition := by
  simp only [remaining, read]
  by_cases h : c.readPosition < c.source.length
  · rw [List.getElem?_eq_getElem h, Option.toList_some, List.length_singleton]
    omega
  · rw [List.getElem?_eq_none (Nat.le_of_not_lt h), Option.toList_none, List.length_nil]
    omega

theorem remaining_read_le (c : Cursor) : c.read.remaining ≤ c.remaining :=
  remaining_read c ▸ Nat.le_add_left _ _

theorem remaining_read_lt {c : Cursor} {ch : Char} (h : c.char? = some ch) :
    c.read.remaining < c.remaining := by
  rw [remaining_read, remaining, h, Option.toList_some, List.length_singleton]
  omega

def readWhile (p : Char → Bool) (c : Cursor) : Cursor :=
  match _h : c.char? with
  | none => c
  | some ch => if p ch then c.read.readWhile p else c
termination_by c.remaining
decreasing_by exact remaining_read_lt _h

theorem readWhile_of_pos {p : Char → Bool} {c : Cursor} {ch : Char} (h : c.char? = some ch)
    (hp : p ch) : c.readWhile p = c.read.readWhile p := by
  rw [readWhile]
  split
  · next hnone =>
    rw [h] at hnone
    cases hnone
  · next ch' hch =>
    obtain rfl : ch = ch' := Option.some.inj (h.symm.trans hch)
    rw [if_pos hp]

theorem readWhile_of_end {p : Char → Bool} {c : Cursor} (h : ∀ ch ∈ c.char?, p ch = false) :
    c.readWhile p = c := by
  rw [readWhile]
  split
  · rfl
  · next ch hch => rw [h ch hch, if_neg Bool.false_ne_true]

theorem remaining_readWhile_le (p : Char → Bool) (c : Cursor) :
    (c.readWhile p).remaining ≤ c.remaining := by
  fun_induction readWhile p c with
  | case1 => exact Nat.le_refl _
  | case2 c ch h hp ih => exact Nat.le_trans ih (remaining_read_le c)
  | case3 => exact Nat.le_refl _

def skipGaps (c : Cursor) : Cursor := c.readWhile isGap

def slice (c : Cursor) (first last : Nat) : String := String.ofList (c.source.extract first last)

def start (c : Cursor) (ch : Char) : Token × Cursor :=
  if isLetter ch then
    let behind := c.readWhile isLetter
    let word := c.slice c.position behind.position
    (⟨Kind.ofWord word, word⟩, behind)
  else if isDigit ch then
    let behind := c.readWhile isDigit
    (⟨.int, c.slice c.position behind.position⟩, behind)
  else if isQuote ch then
    let closing := c.read.readWhile (!isQuote ·)
    (⟨.string, c.slice (c.position + 1) closing.position⟩, closing.read)
  else if ch == '=' && c.peek? == some '=' then (⟨.eq, "=="⟩, c.read.read)
  else if ch == '!' && c.peek? == some '=' then (⟨.notEq, "!="⟩, c.read.read)
  else (⟨(Kind.ofChar? ch).getD .illegal, ch.toString⟩, c.read)

def next (c : Cursor) : Token × Cursor :=
  let behind := c.skipGaps
  match behind.char? with
  | none => (.eof, behind)
  | some ch => behind.start ch

theorem remaining_start_lt {c : Cursor} {ch : Char} (h : c.char? = some ch) :
    (c.start ch).2.remaining < c.remaining := by
  have hread := remaining_read_lt h
  have hrun {p : Char → Bool} (hp : p ch) : (c.readWhile p).remaining < c.remaining := by
    rw [readWhile_of_pos h hp]
    exact Nat.lt_of_le_of_lt (remaining_readWhile_le p c.read) hread
  unfold start
  split
  · next hletter => exact hrun hletter
  split
  · next hdigit => exact hrun hdigit
  split
  · have hclosing := remaining_readWhile_le (!isQuote ·) c.read
    have hbehind := remaining_read_le (c.read.readWhile (!isQuote ·))
    exact Nat.lt_of_le_of_lt (Nat.le_trans hbehind hclosing) hread
  split
  · exact Nat.lt_of_le_of_lt (remaining_read_le c.read) hread
  split
  · exact Nat.lt_of_le_of_lt (remaining_read_le c.read) hread
  · exact hread

theorem next_of_none {c : Cursor} (h : c.skipGaps.char? = none) :
    c.next = (.eof, c.skipGaps) := by
  simp only [next, h]

theorem next_of_some {c : Cursor} {ch : Char} (h : c.skipGaps.char? = some ch) :
    c.next = c.skipGaps.start ch := by
  simp only [next, h]

theorem remaining_next_lt {c : Cursor} (h : c.next.1.kind ≠ .eof) :
    c.next.2.remaining < c.remaining := by
  cases hchar : c.skipGaps.char? with
  | none =>
    rw [next_of_none hchar] at h
    exact absurd rfl h
  | some ch =>
    rw [next_of_some hchar]
    exact Nat.lt_of_lt_of_le (remaining_start_lt hchar) (remaining_readWhile_le isGap c)

def drain (c : Cursor) : List Token × Cursor :=
  let r := c.next
  if _h : r.1.kind = .eof then ([r.1], r.2)
  else
    let more := r.2.drain
    (r.1 :: more.1, more.2)
termination_by c.remaining
decreasing_by exact remaining_next_lt _h

theorem drain_of_eof {c : Cursor} (h : c.next.1.kind = .eof) :
    c.drain = ([c.next.1], c.next.2) := by
  rw [drain, dif_pos h]

theorem drain_of_ne_eof {c : Cursor} (h : c.next.1.kind ≠ .eof) :
    c.drain = (c.next.1 :: c.next.2.drain.1, c.next.2.drain.2) := by
  rw [drain, dif_neg h]

end Cursor

end TreeWalk
