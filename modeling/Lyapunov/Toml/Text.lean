/-
Strings and keys of a TOML text. A string stands between quotation marks, where a backslash starts
an escape sequence, or between apostrophes, where it does not; with three quotes on each side it may
take several lines. A key has parts separated by dots, each a bare word or a string.
-/
import Lyapunov.Toml.Number

namespace Lyapunov.Toml

open Scan

/-! ## Strings -/

/-- The character with a number of `n` hexadecimal digits; a surrogate is refused. -/
def codePoint (n : Nat) : Scan Char := do
  let code := numeral 16 (← times (satisfy isHexDigit) n)
  if code.isValidChar then return Char.ofNat code else failure

/-- The character that an escape sequence stands for. -/
def escape : Scan Char := do
  char '\\'
  match ← satisfy fun _ => true with
  | 'b' => return '\x08'
  | 't' => return '\t'
  | 'n' => return '\n'
  | 'f' => return '\x0c'
  | 'r' => return '\r'
  | '"' => return '"'
  | '\\' => return '\\'
  | 'u' => codePoint 4
  | 'U' => codePoint 8
  | _ => failure

/-- A string between quotation marks, on one line. -/
def basicString : Scan String := do
  char '"'
  let cs ← many (satisfy (fun c => isText c && c != '"' && c != '\\') <|> escape)
  char '"'
  return String.ofList cs

/-- A string between apostrophes, on one line and without escape sequences. -/
def literalString : Scan String := do
  char '\''
  let cs ← takeWhile fun c => isText c && c != '\''
  char '\''
  return String.ofList cs

/-- One or two quotes that do not end a string of several lines. -/
def innerQuotes (quote : Char) : Scan (List Char) := do
  let quotes ← takeWhile1 (· == quote)
  if quotes.length < 3 then return quotes else failure

/-- The three quotes that end a string of several lines, after at most two that belong to it. -/
def closingQuotes (quote : Char) : Scan (List Char) := do
  let quotes ← takeWhile1 (· == quote)
  if 3 ≤ quotes.length && quotes.length ≤ 5 then return quotes.drop 3 else failure

/-- A backslash at the end of a line, with all blanks and line ends after it. -/
def lineContinuation : Scan (List Char) := do
  char '\\'
  blanks
  newline
  discard (many (discard (satisfy isBlank) <|> newline))
  return []

/-- A string of several lines made of the given parts, between three quotes each. A line end right
after the opening quotes is dropped. -/
def multilineString (quote : Char) (part : Scan (List Char)) : Scan String := do
  discard (times (char quote) 3)
  newline <|> pure ()
  let parts ← many (part <|> (do newline; return ['\n']) <|> innerQuotes quote)
  return String.ofList (parts.flatten ++ (← closingQuotes quote))

def multilineBasicString : Scan String :=
  multilineString '"'
    (takeWhile1 (fun c => isText c && c != '"' && c != '\\') <|> lineContinuation <|>
      (do return [← escape]))

def multilineLiteralString : Scan String :=
  multilineString '\'' (takeWhile1 fun c => isText c && c != '\'')

/-- A string in any of its four forms. -/
def string : Scan String := do
  match ← get with
  | '"' :: '"' :: '"' :: _ => multilineBasicString
  | '\'' :: '\'' :: '\'' :: _ => multilineLiteralString
  | '"' :: _ => basicString
  | _ => literalString

/-! ## Keys -/

/-- Keys and values nest less deep than this. -/
def depthLimit : Nat := 80

def isBareKeyChar (c : Char) : Bool := c.isAlphanum || c == '-' || c == '_'

/-- One part of a key: a bare word or a string on one line. -/
def simpleKey : Scan String := do
  match ← peek? with
  | some '"' => basicString
  | some '\'' => literalString
  | _ => return String.ofList (← takeWhile1 isBareKeyChar)

/-- A key with its parts, separated by dots: all but the last, and the last. -/
def key : Scan (List String × String) := do
  let part : Scan String := do blanks; let k ← simpleKey; blanks; return k
  let first ← part
  let parts := first :: (← many (do char '.'; part))
  if parts.length < depthLimit then return (parts.dropLast, parts.getLastD first) else failure

end Lyapunov.Toml
