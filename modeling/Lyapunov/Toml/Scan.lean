/-
Reading a text from the front. A `Scan` takes characters off the front of a text or fails; where
one of two scans is tried first, its failure leaves the text as it was. The text that is left gets
shorter with every character, so its length bounds a repetition.
-/
namespace Lyapunov.Toml

/-- A reading of the front of the remaining characters, which may fail. -/
abbrev Scan := StateT (List Char) Option

namespace Scan

variable {β : Type}

/-- The next character, which stays in the text. -/
def peek? : Scan (Option Char) := return (← get).head?

/-- The next character if it satisfies the condition. -/
def satisfy (p : Char → Bool) : Scan Char := do
  match ← get with
  | c :: rest => if p c then set rest; return c else failure
  | [] => failure

/-- A given character. -/
def char (c : Char) : Scan Unit := discard (satisfy (· == c))

/-- Given characters in a row. -/
def word (w : String) : Scan Unit := w.toList.forM char

/-- The longest run of characters that satisfy the condition. -/
def takeWhile (p : Char → Bool) : Scan (List Char) := modifyGet fun s => s.span p

/-- At least one character that satisfies the condition, and all that follow. -/
def takeWhile1 (p : Char → Bool) : Scan (List Char) := return (← satisfy p) :: (← takeWhile p)

/-- At most `n` results of a scan, until it fails. -/
def manyUpTo (p : Scan β) : Nat → Scan (List β)
  | 0 => pure []
  | n + 1 => (do return (← p) :: (← manyUpTo p n)) <|> pure []

/-- The results of a scan that takes at least one character, until it fails. -/
def many (p : Scan β) : Scan (List β) := do manyUpTo p (← get).length

/-- A number of results in a row. -/
def times (p : Scan β) : Nat → Scan (List β)
  | 0 => pure []
  | n + 1 => do return (← p) :: (← times p n)

/-- The end of the text. -/
def atEnd : Scan Unit := do if (← get).isEmpty then pure () else failure

end Scan

open Scan

/-! ## Blanks, comments and lines -/

def isBlank (c : Char) : Bool := c == ' ' || c == '\t'

/-- Whether a character may stand in a comment or a string: all but the control characters of ASCII
other than the tab. -/
def isText (c : Char) : Bool := c == '\t' || (' ' ≤ c && c != '\x7f')

def blanks : Scan Unit := discard (takeWhile isBlank)

/-- A line feed, with or without a carriage return in front. -/
def newline : Scan Unit := char '\n' <|> word "\r\n"

def comment : Scan Unit := do char '#'; discard (takeWhile isText)

/-- Blanks and perhaps a comment, up to the end of the line. -/
def lineEnd : Scan Unit := do
  blanks
  if (← peek?) == some '#' then comment
  newline <|> atEnd

/-- Blanks, comments and ends of lines. -/
def spacing : Scan Unit :=
  discard (many (discard (satisfy isBlank) <|> newline <|> (do comment; newline)))

end Lyapunov.Toml
