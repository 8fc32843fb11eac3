/-! # Lines

Two ways to cut a text into lines. `lines` cuts at every line break, the Unicode ones included, and
drops the breaks. `feedLines` cuts after each line feed only and keeps it, as a stream that is read
line by line does; `wholeLines` and `linesSoFar` leave out what no line feed has ended. -/

namespace Intcode.Text

/-- A line break of one character. A carriage return with a line feed after it is one break too. -/
def isBreak (c : Char) : Bool :=
  let n := c.toNat
  (0x0a ≤ n && n ≤ 0x0d) || (0x1c ≤ n && n ≤ 0x1e) || n == 0x85 || n == 0x2028 || n == 0x2029

/-- Puts `c` at the front of the first line. -/
def consLine {α : Type} (c : α) : List (List α) → List (List α)
  | [] => [[c]]
  | l :: ls => (c :: l) :: ls

/-- The lines of a text, without their breaks. A break at the end of the text starts no further
line. -/
def lines : List Char → List (List Char)
  | [] => []
  | '\r' :: '\n' :: cs => [] :: lines cs
  | c :: cs => if isBreak c then [] :: lines cs else consLine c (lines cs)

/-- The line feed, which ends a line of a stream. -/
def isFeed (c : Char) : Bool := c == '\n'

/-- Cuts after the first element that satisfies `p`, or after everything. -/
def cutAfter {α : Type} (p : α → Bool) : List α → List α × List α
  | [] => ([], [])
  | a :: as =>
    if p a then ([a], as)
    else
      let (line, rest) := cutAfter p as
      (a :: line, rest)

/-- The lines of a stream, each with its line feed; the last may lack it. -/
def feedLines : List Char → List (List Char)
  | [] => []
  | c :: cs => if isFeed c then [c] :: feedLines cs else consLine c (feedLines cs)

/-- The lines of a stream that have their line feed. -/
def wholeLines (cs : List Char) : List (List Char) := (feedLines cs).filter (·.any isFeed)

/-- Every carriage return, with the line feed after it if there is one, becomes a line feed. -/
def unifyFeeds : List Char → List Char
  | [] => []
  | '\r' :: '\n' :: cs => '\n' :: unifyFeeds cs
  | c :: cs => (if c = '\r' then '\n' else c) :: unifyFeeds cs

/-- The whole lines of a text of which more is to come. A carriage return at the end ends no line
yet, because a line feed may follow it. -/
def linesSoFar (cs : List Char) : List (List Char) :=
  wholeLines (unifyFeeds (if cs.getLast? = some '\r' then cs.dropLast else cs))

theorem cutAfter_append {α : Type} (p : α → Bool) (as : List α) :
    (cutAfter p as).1 ++ (cutAfter p as).2 = as := by
  induction as with
  | nil => rfl
  | cons a as ih => by_cases h : p a <;> simp [cutAfter, h, ih]

theorem flatten_consLine {α : Type} (c : α) (ls : List (List α)) :
    (consLine c ls).flatten = c :: ls.flatten := by
  cases ls <;> simp [consLine]

theorem flatten_feedLines (cs : List Char) : (feedLines cs).flatten = cs := by
  induction cs with
  | nil => rfl
  | cons c cs ih => by_cases h : isFeed c <;> simp [feedLines, h, flatten_consLine, ih]

end Intcode.Text
