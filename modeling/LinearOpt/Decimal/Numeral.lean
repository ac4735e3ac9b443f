/-!
# Reading numerals

Three grammars over characters, digits being the ten ASCII ones:

* an integer is an optional minus sign and at least one digit;
* a fraction is an integer, or two integers with a slash between them;
* a decimal is an optional sign, digits with at most one point among or beside them, and an
  optional exponent. It stands for `± digits * 10 ^ exponent`.
-/

namespace LinearOpt.Decimal

/-- The number that a list of digits stands for. -/
def value (digits : List Char) : Nat :=
  digits.foldl (fun n c => 10 * n + (c.toNat - '0'.toNat)) 0

/-- A nonempty list of digits, read as a number. -/
def natural? (cs : List Char) : Option Nat :=
  if cs ≠ [] ∧ cs.all Char.isDigit then some (value cs) else none

def integer? : List Char → Option Int
  | '-' :: cs => (natural? cs).map fun n => -(n : Int)
  | cs => (natural? cs).map fun n => (n : Int)

/-- Numerator and denominator. An integer has denominator one. -/
def fraction? (cs : List Char) : Option (Int × Int) :=
  match cs.dropWhile (· ≠ '/') with
  | [] => (integer? cs).map fun n => (n, 1)
  | _ :: rest => do
      let n ← integer? (cs.takeWhile (· ≠ '/'))
      let d ← integer? rest
      return (n, d)

/-- The number `± digits * 10 ^ exponent`. -/
structure Scientific where
  negative : Bool
  digits : Nat
  exponent : Int
  deriving DecidableEq

namespace Scientific

/-- The exponent after a mantissa: nothing, or the letter e, an optional sign and digits. -/
def exponent? : List Char → Option Int
  | [] => some 0
  | c :: cs =>
      if c = 'e' ∨ c = 'E' then
        match cs with
        | '+' :: rest => (natural? rest).map fun n => (n : Int)
        | rest => integer? rest
      else none

/-- Digits, an optional point with digits, and an exponent. -/
def unsigned? (negative : Bool) (cs : List Char) : Option Scientific := do
  let whole := cs.takeWhile Char.isDigit
  let rest := cs.dropWhile Char.isDigit
  let (places, rest) :=
    match rest with
    | '.' :: tail => (tail.takeWhile Char.isDigit, tail.dropWhile Char.isDigit)
    | _ => ([], rest)
  if whole = [] ∧ places = [] then none
  let exponent ← exponent? rest
  return ⟨negative, value (whole ++ places), exponent - places.length⟩

def ofChars? : List Char → Option Scientific
  | '-' :: cs => unsigned? true cs
  | '+' :: cs => unsigned? false cs
  | cs => unsigned? false cs

end Scientific

end LinearOpt.Decimal
