/-!
# Numerals

Natural numbers in positional notation. `value` reads digits of any base up to sixteen and
`decimal` writes in base ten.
-/

namespace Pipeline.Numeral

/-- The worth of a digit; letters of either case count on from ten. -/
def digitValue (c : Char) : Nat :=
  if c.isDigit then c.toNat - '0'.toNat
  else if c.isLower then c.toNat - 'a'.toNat + 10
  else c.toNat - 'A'.toNat + 10

/-- The number that `digits` denotes, the most significant digit first. -/
def value (base : Nat) (digits : List Char) : Nat :=
  digits.foldl (fun n c => n * base + digitValue c) 0

/-- The shortest decimal numeral of `n`. -/
def decimal (n : Nat) : List Char :=
  Nat.toDigits 10 n

/-- The decimal numeral as a string. -/
def text (n : Nat) : String :=
  String.ofList (decimal n)

/-- An integer in decimal, with a minus sign if it is negative. -/
def signed (n : Int) : List Char :=
  if n < 0 then '-' :: decimal n.natAbs else decimal n.natAbs

end Pipeline.Numeral
