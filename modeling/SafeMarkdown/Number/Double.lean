/-!
# Binary64 numbers

A double is not a number, an infinity, or a sign and a rank: the finite magnitudes in increasing
order are numbered from zero, so that rank `r` below `2 ^ 52` is the subnormal `r * 2 ^ -1074`
and each further block of `2 ^ 52` ranks doubles the spacing. Reading a quotient of naturals rounds
it to the nearest double, a tie going to the even significand; since ranks are consecutive, a
significand that rounds up to the next power of two lands on the right rank by itself.
-/

namespace SafeMarkdown

abbrev Double.rankCount : Nat := 2047 * Nat.pow 2 52

/-- A binary64 number; all that is not a number is one value. -/
inductive Double where
  | nan
  | infinite (negative : Bool)
  | finite (negative : Bool) (rank : Fin Double.rankCount)
  deriving DecidableEq

namespace Double

def zero (negative : Bool) : Double :=
  .finite negative ⟨0, by decide⟩

def significand (rank : Nat) : Nat :=
  if rank < Nat.pow 2 52 then rank else Nat.pow 2 52 + rank % Nat.pow 2 52

def binade (rank : Nat) : Nat :=
  rank / Nat.pow 2 52 - 1

/-- A finite magnitude as a quotient: the spacing of binade zero is `2 ^ -1074`. -/
def numerator (rank : Nat) : Nat :=
  significand rank * Nat.pow 2 (binade rank)

def denominator : Nat := Nat.pow 2 1074

/-- The quotient rounded to the nearest natural, a tie to the even one. -/
def roundToEven (p q : Nat) : Nat :=
  let down := p / q
  let twice := 2 * (p % q)
  if twice < q then down
  else if q < twice then down + 1
  else down + down % 2

def binadeOf (p q : Nat) : Nat :=
  (p * denominator / q).log2 - 52

/-- The rank of the double nearest to `p / q`; it may lie beyond the finite ones. -/
def rankOf (p q : Nat) : Nat :=
  let k := binadeOf p q
  k * Nat.pow 2 52 + roundToEven (p * denominator) (q * Nat.pow 2 k)

/-- The double nearest to `p / q` with a sign, infinite when it is too large. -/
def ofRatio (negative : Bool) (p q : Nat) : Double :=
  if h : rankOf p q < rankCount then .finite negative ⟨rankOf p q, h⟩ else .infinite negative

/-- The double nearest to `digits * 10 ^ exponent`. Far outside the finite range the power is not
computed. -/
def ofDecimal (negative : Bool) (digits : Nat) (exponent : Int) : Double :=
  if digits = 0 then zero negative
  else
    let size : Int := (digits.log2 : Int) / 4
    if 400 < exponent + size then .infinite negative
    else if exponent + 3 * size + 3 < -400 then zero negative
    else if 0 ≤ exponent then ofRatio negative (digits * Nat.pow 10 exponent.toNat) 1
    else ofRatio negative digits (Nat.pow 10 (-exponent).toNat)

def ofInt (n : Int) : Double :=
  ofRatio (n < 0) n.natAbs 1

def isZero : Double → Bool
  | .finite _ rank => rank.val == 0
  | _ => false

def signedNumerator (negative : Bool) (rank : Nat) : Int :=
  if negative then -(numerator rank : Int) else numerator rank

/-- The integer that a double equals, if it equals one. -/
def toInt? : Double → Option Int
  | .finite negative rank =>
    if numerator rank % denominator = 0 then some (signedNumerator negative rank / denominator)
    else none
  | _ => none

/-- The rounded sum. A sum that is exactly zero is positive unless both terms are negative. -/
def add : Double → Double → Double
  | .nan, _ => .nan
  | _, .nan => .nan
  | .infinite s, .infinite t => if s == t then .infinite s else .nan
  | .infinite s, _ => .infinite s
  | _, .infinite t => .infinite t
  | .finite s r, .finite t u =>
    let n := signedNumerator s r + signedNumerator t u
    if n = 0 then zero (s && t)
    else ofRatio (n < 0) n.natAbs denominator

/-- The rounded product. -/
def mul : Double → Double → Double
  | .nan, _ => .nan
  | _, .nan => .nan
  | .infinite s, .infinite t => .infinite (s != t)
  | .infinite s, .finite t u => if u.val = 0 then .nan else .infinite (s != t)
  | .finite s r, .infinite t => if r.val = 0 then .nan else .infinite (s != t)
  | .finite s r, .finite t u =>
    ofRatio (s != t) (numerator r * numerator u) (denominator * denominator)

/-- The number with the opposite sign. -/
def neg : Double → Double
  | .nan => .nan
  | .infinite s => .infinite (!s)
  | .finite s r => .finite (!s) r

end Double

end SafeMarkdown
