import Pipeline.Binary64
import Pipeline.Text.Numeral

/-!
# Decimal fractions

`Decimal.toBinary64?` reads a number in decimal notation: a sign, digits with a point anywhere among
them, and a power of ten, of which only one digit is required. The names of infinity and of what is
no number are read in letters of either case.
-/

namespace Pipeline.Decimal

/-- The nearest number to `digits * 10 ^ e`. Past either bound on the magnitude the powers need not
be computed: the number then exceeds every finite one, or is less than half the least positive
one. -/
def scale (digits : List Char) (e : Int) : Binary64 :=
  let significant := digits.dropWhile (· = '0')
  let n := Numeral.value 10 significant
  let magnitude : Int := significant.length + e
  if n = 0 then .zero
  else if 310 < magnitude then .infinity
  else if magnitude < -330 then .zero
  else .ofRatio (n * Nat.pow 10 e.toNat) (Nat.pow 10 (-e).toNat)

/-- A sign and the rest; nothing is a plus sign too. -/
def sign : List Char → Bool × List Char
  | '-' :: s => (true, s)
  | '+' :: s => (false, s)
  | s => (false, s)

/-- A power of ten, or nothing for the zeroth. -/
def exponent? : List Char → Option Int
  | [] => some 0
  | e :: s =>
    let (negative, ds) := sign s
    if (e = 'e' || e = 'E') && !ds.isEmpty && ds.all Char.isDigit then
      let n : Int := Numeral.value 10 ds
      some (if negative then -n else n)
    else none

/-- The digits behind a point, if there is one, and what follows. -/
def fraction : List Char → List Char × List Char
  | '.' :: s => (s.takeWhile Char.isDigit, s.dropWhile Char.isDigit)
  | s => ([], s)

/-- A number without a sign. -/
def magnitude? (s : List Char) : Option Binary64 :=
  let word := s.map Char.toLower
  if word = "inf".toList ∨ word = "infinity".toList then some .infinity
  else if word = "nan".toList then some .nan
  else
    let whole := s.takeWhile Char.isDigit
    let (part, rest) := fraction (s.dropWhile Char.isDigit)
    let digits := whole ++ part
    if digits.isEmpty then none
    else (exponent? rest).map fun e => scale digits (e - part.length)

/-- The nearest number to a text in decimal notation, with its sign. -/
def toBinary64? (s : List Char) : Option Binary64 :=
  let (negative, s) := sign s
  (magnitude? s).map fun x => if negative then x.negate else x

end Pipeline.Decimal
