/-
Numbers of a TOML text: integers of 64 bits in base ten, sixteen, eight or two, and real numbers,
which are rounded to the nearest double.
-/
import Lyapunov.Toml.Scan
import Lyapunov.Toml.Value

namespace Lyapunov.Toml

open Scan

/-! ## Digits -/

def isHexDigit (c : Char) : Bool := c.isDigit || ('a' ≤ c && c ≤ 'f') || ('A' ≤ c && c ≤ 'F')

/-- The value of a digit in a base up to sixteen. -/
def digitValue (c : Char) : Nat :=
  if c.isDigit then c.toNat - '0'.toNat
  else if 'a' ≤ c then c.toNat - 'a'.toNat + 10
  else c.toNat - 'A'.toNat + 10

/-- The number written with the given digits. -/
def numeral (base : Nat) (digits : List Char) : Nat :=
  digits.foldl (fun n c => n * base + digitValue c) 0

/-- Digits, with single underscores between them. -/
def digits (isDigit : Char → Bool) : Scan (List Char) := do
  let first ← satisfy isDigit
  return first :: (← many (satisfy isDigit <|> (do char '_'; satisfy isDigit)))

/-! ## Integers and reals -/

/-- A decimal number without leading zeros. -/
def wholePart : Scan (List Char) := do
  if (← peek?) == some '0' then
    char '0'
    return ['0']
  else
    digits Char.isDigit

/-- The integer, if it has 64 bits. -/
def integer (negative : Bool) (magnitude : Nat) : Scan Value :=
  let i : Int := if negative then -magnitude else magnitude
  if -9223372036854775808 ≤ i && i ≤ 9223372036854775807 then return .int (.ofInt i) else failure

/-- The nearest double to `mantissa * 10 ^ exponent`. Exponents so large or so small that the result
is infinite or zero are not computed with. -/
def decimal (mantissa : Nat) (exponent : Int) : Float :=
  let magnitude := (Nat.toDigits 10 mantissa).length + exponent
  if mantissa = 0 then 0.0
  else if 400 < magnitude then 1.0 / 0.0
  else if magnitude < -400 then 0.0
  else .ofScientific mantissa (exponent < 0) exponent.natAbs

/-- The exponent of a number, zero if there is none. -/
def exponent : Scan Int := do
  if !((← peek?) == some 'e' || (← peek?) == some 'E') then return 0
  discard (satisfy fun _ => true)
  let negative := (← peek?) == some '-'
  if negative || (← peek?) == some '+' then discard (satisfy fun _ => true)
  let n := numeral 10 (← digits Char.isDigit)
  return if negative then -n else n

/-- A decimal integer or a real number, after its sign. A real number that is too large is
refused. -/
def decimalNumber (negative : Bool) : Scan Value := do
  let whole ← wholePart
  match ← peek? with
  | some '.' =>
    char '.'
    let fraction ← digits Char.isDigit
    real whole fraction (← exponent)
  | some 'e' | some 'E' => real whole [] (← exponent)
  | _ => integer negative (numeral 10 whole)
where
  real (whole fraction : List Char) (e : Int) : Scan Value :=
    let x := decimal (numeral 10 (whole ++ fraction)) (e - fraction.length)
    if negative then return .real (-x)
    else if x.isInf then failure
    else return .real x

/-- A number without a sign: in a base other than ten, or decimal. -/
def unsignedNumber : Scan Value := do
  let inBase (base : Nat) (isDigit : Char → Bool) : Scan Value := do
    modify (·.drop 2)
    integer false (numeral base (← digits isDigit))
  match ← get with
  | '0' :: 'x' :: _ => inBase 16 isHexDigit
  | '0' :: 'o' :: _ => inBase 8 fun c => '0' ≤ c && c ≤ '7'
  | '0' :: 'b' :: _ => inBase 2 fun c => c == '0' || c == '1'
  | _ => decimalNumber false

/-- Infinity or NaN, after its sign. -/
def specialNumber (negative : Bool) : Scan Value :=
  (do word "inf"; return .real (if negative then -1.0 / 0.0 else 1.0 / 0.0)) <|>
    (do word "nan"; return .real (0.0 / 0.0))

/-- A number in any of its forms. -/
def number : Scan Value := do
  match ← peek? with
  | some '-' => char '-'; signed true
  | some '+' => char '+'; signed false
  | some 'i' | some 'n' => specialNumber false
  | _ => unsignedNumber
where
  signed (negative : Bool) : Scan Value := do
    if (← peek?) == some 'i' || (← peek?) == some 'n' then specialNumber negative
    else decimalNumber negative

end Lyapunov.Toml
