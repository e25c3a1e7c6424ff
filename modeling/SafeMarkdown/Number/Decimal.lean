import SafeMarkdown.Number.Double

/-!
# Shortest decimals

A finite double is written with the fewest significant digits that read back as the same number;
among decimals of that length the nearest is taken, and an exact tie goes to the even last digit.
The search tests, for one digit, two digits and so on, the two neighbours of the value on the grid
of that many digits, in exact arithmetic.
-/

namespace SafeMarkdown

/-- A positive decimal `digits * 10 ^ exponent`. -/
structure Decimal where
  digits : Nat
  exponent : Int
  deriving DecidableEq, Repr

namespace Decimal

def digitCount (n : Nat) : Nat :=
  (Nat.toDigits 10 n).length

def scaled (p q : Nat) (k : Int) : Nat × Nat :=
  if 0 ≤ k then (p * Nat.pow 10 k.toNat, q) else (p, q * Nat.pow 10 (-k).toNat)

/-- The position of the decimal point: the `k` with `10 ^ (k - 1) ≤ p / q < 10 ^ k`. -/
def pointOf (p q : Nat) : Int :=
  let guess : Int := (digitCount p : Int) - digitCount q
  let (a, b) := scaled p q (-guess)
  if b ≤ a then guess + 1 else guess

def readsAs (rank : Fin Double.rankCount) (d : Decimal) : Bool :=
  Double.ofDecimal false d.digits d.exponent == .finite false rank

/-- The decimal of at most `count` digits that stands for the magnitude, if one reads back. -/
def candidate (rank : Fin Double.rankCount) (point : Int) (count : Nat) : Option Decimal :=
  let exponent := point - count
  let (a, b) := scaled (Double.numerator rank) Double.denominator (-exponent)
  let low : Decimal := ⟨a / b, exponent⟩
  let high : Decimal := ⟨a / b + 1, exponent⟩
  let nearest := if Double.roundToEven a b = a / b then low else high
  let other := if Double.roundToEven a b = a / b then high else low
  if readsAs rank nearest then some nearest
  else if readsAs rank other then some other
  else none

def exact (rank : Nat) : Decimal :=
  ⟨Double.numerator rank * Nat.pow 5 1074, -1074⟩

/-- Moves the zeros at the end of the digits into the exponent. -/
def stripZeros : Nat → Decimal → Decimal
  | 0, d => d
  | fuel + 1, d =>
    if d.digits % 10 = 0 && d.digits != 0 then stripZeros fuel ⟨d.digits / 10, d.exponent + 1⟩
    else d

def shortest (rank : Fin Double.rankCount) : Decimal :=
  let point := pointOf (Double.numerator rank) Double.denominator
  let found := ((List.range 17).findSome? fun i ↦ candidate rank point (i + 1)).getD (exact rank)
  stripZeros (digitCount found.digits) found

end Decimal

/-- How doubles are spelled: which decimal points are written positionally, the least number of
exponent digits, the sign of a positive exponent, and the texts of what is not finite. -/
structure DoubleFormat where
  leastPoint : Int
  greatestPoint : Int
  exponentWidth : Nat
  plusSign : Bool
  notANumber : String
  infinity : String

namespace DoubleFormat

def padded (width n : Nat) : List Char :=
  let ds := Nat.toDigits 10 n
  List.replicate (width - ds.length) '0' ++ ds

def exponentText (f : DoubleFormat) (e : Int) : List Char :=
  let sign := if e < 0 then ['-'] else if f.plusSign then ['+'] else []
  'e' :: sign ++ padded f.exponentWidth e.natAbs

def decimalText (f : DoubleFormat) (d : Decimal) : List Char :=
  let ds := Nat.toDigits 10 d.digits
  let point : Int := d.exponent + ds.length
  if f.leastPoint ≤ point && point ≤ f.greatestPoint then
    if point ≤ 0 then '0' :: '.' :: List.replicate (-point).toNat '0' ++ ds
    else if (ds.length : Int) ≤ point then
      ds ++ List.replicate (point - ds.length).toNat '0' ++ ['.', '0']
    else ds.take point.toNat ++ '.' :: ds.drop point.toNat
  else
    let mantissa := match ds with
      | first :: second :: more => first :: '.' :: second :: more
      | short => short
    mantissa ++ f.exponentText (point - 1)

def text (f : DoubleFormat) : Double → List Char
  | .nan => f.notANumber.toList
  | .infinite negative => (if negative then ['-'] else []) ++ f.infinity.toList
  | .finite negative rank =>
    (if negative then ['-'] else []) ++
      if rank.val = 0 then ['0', '.', '0'] else f.decimalText (Decimal.shortest rank)

end DoubleFormat

/-- The spelling of doubles in texts made from values: positional from `0.0001` up to sixteen
digits before the point, exponents of two digits or more with a sign. -/
def DoubleFormat.plain : DoubleFormat := ⟨-3, 16, 2, true, "nan", "inf"⟩

def DoubleFormat.json : DoubleFormat := ⟨-3, 16, 2, true, "NaN", "Infinity"⟩

end SafeMarkdown
