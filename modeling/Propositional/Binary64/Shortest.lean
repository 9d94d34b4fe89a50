import Propositional.Binary64

/-!
# Shortest decimals

A binary number is written with as few digits as identify it. The reals that round to it form an interval, which ends halfway
to its neighbours and holds its ends if the significand is even. The decimals with a given last place form a grid, and of a grid
only the two neighbours of the number can be nearest to it. The grids are tried from coarse to fine, and the first one with a
neighbour in the interval gives the digits.
-/

namespace Propositional.Binary64

/-- How `c * 10 ^ p` compares with `m * 2 ^ q`. -/
def compareScaled (c : Nat) (p : Int) (m : Nat) (q : Int) : Ordering :=
  compare (c * Nat.pow 10 p.toNat * Nat.pow 2 (-q).toNat) (m * Nat.pow 2 q.toNat * Nat.pow 10 (-p).toNat)

/-- The decimal `c * 10 ^ p` rounds to the number `m * 2 ^ q`. Below a power of two the gap between neighbours is half as wide,
unless the exponent is the least one. -/
def readsBack (m : Nat) (q : Int) (c : Nat) (p : Int) : Bool :=
  let low := if m = Nat.pow 2 52 ∧ minExponent < q then 4 * m - 1 else 4 * m - 2
  let isEven := m % 2 == 0
  let fromLow := compareScaled c p low (q - 2)
  let fromHigh := compareScaled c p (4 * m + 2) (q - 2)
  (fromLow == .gt || isEven && fromLow == .eq) && (fromHigh == .lt || isEven && fromHigh == .eq)

/-- The greatest decimal on the grid of `10 ^ p` that is not above `m * 2 ^ q`. -/
def below (m : Nat) (q p : Int) : Nat :=
  m * Nat.pow 2 q.toNat * Nat.pow 10 (-p).toNat / (Nat.pow 2 (-q).toNat * Nat.pow 10 p.toNat)

/-- The decimal nearest to `m * 2 ^ q` among those on the grid of `10 ^ p` that round to it. Of two that are equally near the
even one is taken. -/
def onGrid? (m : Nat) (q p : Int) : Option Nat :=
  let c := below m q p
  match readsBack m q c p, readsBack m q (c + 1) p with
  | true, true =>
    match compareScaled (2 * c + 1) p (2 * m) q with
    | .lt => some (c + 1)
    | .eq => some (c + c % 2)
    | .gt => some c
  | true, false => some c
  | false, true => some (c + 1)
  | false, false => none

/-- The place of the first digit of `n / d`: the greatest `k` such that `10 ^ k` is at most the quotient. -/
def decimalLog (n d : Nat) : Int :=
  let k : Int := ((Nat.toDigits 10 n).length : Int) - (Nat.toDigits 10 d).length
  if d * Nat.pow 10 k.toNat ≤ n * Nat.pow 10 (-k).toNat then k else k - 1

/-- The shortest decimal that rounds to `m * 2 ^ q`, for a positive `m`: its digits as one natural, and the place of the last of
them. Seventeen digits are always enough. -/
def shortest (m : Nat) (q : Int) : Nat × Int :=
  let lead := decimalLog (m * Nat.pow 2 q.toNat) (Nat.pow 2 (-q).toNat)
  let places := (List.range 17).map fun (k : Nat) => lead - (k : Int)
  let tried := places.findSome? fun p => (onGrid? m q p).map (·, p)
  tried.getD (below m q (lead - 16), lead - 16)

/-- The digits of a positive natural without the zeros at its end. -/
def significantDigits (n : Nat) : List Char :=
  ((Nat.toDigits 10 n).reverse.dropWhile (· = '0')).reverse

/-- The text of a number whose digits are `ds`, the first of them at the place `lead`. The point stands among the digits where
the number is from a ten-thousandth to below ten to the sixteenth, and there is a digit on each side of it; elsewhere one digit
stands before the point, and an exponent of at least two digits behind. -/
def layOut (ds : List Char) (lead : Int) : List Char :=
  if -4 ≤ lead ∧ lead < 16 then
    if lead < 0 then '0' :: '.' :: (List.replicate (-lead - 1).toNat '0' ++ ds)
    else
      let whole := ds.take (lead.toNat + 1)
      let fraction := ds.drop (lead.toNat + 1)
      whole ++ List.replicate (lead.toNat + 1 - whole.length) '0' ++ '.' :: (if fraction.isEmpty then ['0'] else fraction)
  else
    let power := Nat.toDigits 10 lead.natAbs
    ds.take 1 ++ (if ds.length = 1 then [] else '.' :: ds.drop 1) ++ 'e' :: (if lead < 0 then '-' else '+') ::
      (List.replicate (2 - power.length) '0' ++ power)

/-- The text of a number without its sign: the shortest decimal that rounds to it. -/
def magnitudeText (m : Nat) (q : Int) : List Char :=
  if m = 0 then ['0', '.', '0']
  else
    let (c, p) := shortest m q
    layOut (significantDigits c) (p + (Nat.toDigits 10 c).length - 1)

/-- The minus sign of a number, if it has one. -/
def signText (negative : Bool) : List Char := if negative then ['-'] else []

end Propositional.Binary64
