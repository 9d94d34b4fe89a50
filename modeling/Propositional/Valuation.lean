/-!
# Valuations

A valuation gives truth values to finitely many variables and keeps them in an order. The valuations of a list of variables
are enumerated in the order of the logic books: all true first, all false last, and the last variable changes fastest.
-/

namespace Propositional

/-- A finite, ordered map from variables to truth values. -/
abbrev Valuation (α : Type) := List (α × Bool)

namespace Valuation

variable {α : Type} [DecidableEq α]

/-- Gives `x` the value `b`: where it stands, if it has a value already, else at the end. -/
def set (x : α) (b : Bool) : Valuation α → Valuation α
  | [] => [(x, b)]
  | (y, c) :: v => if y = x then (y, b) :: v else (y, c) :: set x b v

/-- The valuation that a list of pairs describes: a repeated variable keeps its first place and takes its last value. -/
def ofPairs (ps : List (α × Bool)) : Valuation α := ps.foldl (fun v p => v.set p.1 p.2) []

/-- The value of a variable, false where the valuation has none. -/
def value (v : Valuation α) (x : α) : Bool := (v.lookup x).getD false

end Valuation

/-- The rows of `n` truth values, true before false in every place: `2 ^ n` of them, in decreasing order. -/
def bitRows : Nat → List (List Bool)
  | 0 => [[]]
  | n + 1 => (bitRows n).map (true :: ·) ++ (bitRows n).map (false :: ·)

/-- The valuations of the given variables, one for each row of truth values. -/
def valuations {α : Type} [DecidableEq α] (xs : List α) : List (Valuation α) :=
  (bitRows xs.length).map fun bits => Valuation.ofPairs (xs.zip bits)

end Propositional
