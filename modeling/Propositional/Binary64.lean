/-!
# Binary numbers of 64 bits

A number with a fraction or an exponent is kept in 64 bits: a sign, a significand of at most 53 bits and a power of two from
`2 ^ (-1074)` to `2 ^ 971`, with infinities beyond and one value that is not a number. A decimal stands for the nearest of these
numbers, and of two that are equally near for the one with the even significand. All arithmetic is exact, on naturals.
-/

namespace Propositional

/-- A binary number of 64 bits. A finite one is `± significand * 2 ^ exponent`; zero has a sign too. -/
inductive Binary64 where
  | finite (negative : Bool) (significand : Nat) (exponent : Int)
  | infinity (negative : Bool)
  | nan
  deriving DecidableEq, Repr

namespace Binary64

/-- The least exponent. -/
def minExponent : Int := -1074

/-- The greatest exponent. -/
def maxExponent : Int := 971

/-- The quotient of two naturals rounded to the nearest natural, a half to the even one. -/
def roundedQuotient (n d : Nat) : Nat :=
  match compare (2 * (n % d)) d with
  | .lt => n / d
  | .eq => n / d + n / d % 2
  | .gt => n / d + 1

/-- The greatest `k` such that `2 ^ k` is at most `n / d`, for positive `n` and `d`. -/
def binaryLog (n d : Nat) : Int :=
  let k : Int := (n.log2 : Int) - d.log2
  if d * Nat.pow 2 k.toNat ≤ n * Nat.pow 2 (-k).toNat then k else k - 1

/-- The number with a given sign that is nearest to `n / d`, for positive `n` and `d`. -/
def nearest (negative : Bool) (n d : Nat) : Binary64 :=
  let exponent := max minExponent (binaryLog n d - 52)
  let significand := roundedQuotient (n * Nat.pow 2 (-exponent).toNat) (d * Nat.pow 2 exponent.toNat)
  let carried := significand = Nat.pow 2 53
  let exponent := if carried then exponent + 1 else exponent
  if maxExponent < exponent then infinity negative
  else finite negative (if carried then Nat.pow 2 52 else significand) exponent

/-- The number that the decimal `± digits * 10 ^ exponent` stands for. From `10 ^ 309` on a decimal is infinite, and below
`2 ^ (-1100)` it is zero; there its power of ten is not worked out. -/
def ofDecimal (negative : Bool) (digits : Nat) (exponent : Int) : Binary64 :=
  if digits = 0 ∨ (digits.log2 : Int) + 1 + 3 * exponent < -1100 then finite negative 0 minExponent
  else if 309 ≤ exponent then infinity negative
  else nearest negative (digits * Nat.pow 10 exponent.toNat) (Nat.pow 10 (-exponent).toNat)

/-- A signed natural. -/
def signed (negative : Bool) (n : Nat) : Int := if negative then -n else n

/-- How a number compares with an integer. What is not a number has no order. -/
def compareInt : Binary64 → Int → Option Ordering
  | finite negative m e, n => some (compare (signed negative m * Nat.pow 2 e.toNat) (n * Nat.pow 2 (-e).toNat))
  | infinity negative, _ => some (if negative then .lt else .gt)
  | nan, _ => none

/-- Two numbers have the same value. Both zeros have the same, and what is not a number has none. -/
def same : Binary64 → Binary64 → Bool
  | finite s m e, finite s' m' e' =>
    let low := min e e'
    signed s m * Nat.pow 2 (e - low).toNat == signed s' m' * Nat.pow 2 (e' - low).toNat
  | infinity s, infinity s' => s == s'
  | _, _ => false

/-- A number is zero. -/
def isZero : Binary64 → Bool
  | finite _ m _ => m == 0
  | _ => false

end Binary64

end Propositional
