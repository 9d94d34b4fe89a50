import Propositional.Binary64.Shortest
import Propositional.Json.Text

/-!
# JSON values

The values of a configuration file and of what is exported. Numbers with a fraction or an exponent are binary numbers of 64
bits, and integers have any size. Values are compared by what they mean: a truth value counts as the number one or zero, and the
order of the fields of an object does not matter.
-/

namespace Propositional

/-- A JSON value. -/
inductive Json where
  | null
  | bool (b : Bool)
  | int (n : Int)
  | float (x : Binary64)
  | str (s : JsonText)
  | arr (items : List Json)
  | obj (fields : List (JsonText × Json))
  deriving Inhabited

namespace Json

/-- Gives a field of an object a value: where it stands, if there is one of that name, else at the end. -/
def setField (name : JsonText) (value : Json) : List (JsonText × Json) → List (JsonText × Json)
  | [] => [(name, value)]
  | (n, v) :: fields => if n = name then (n, value) :: fields else (n, v) :: setField name value fields

/-- The fields of an object that lists its fields in the given order. Of several fields of one name the last value counts. -/
def ofFields (fields : List (JsonText × Json)) : List (JsonText × Json) :=
  fields.foldl (fun fs f => setField f.1 f.2 fs) []

/-- The value of a field. -/
def field? (fields : List (JsonText × Json)) (name : JsonText) : Option Json := fields.lookup name

/-! ## Comparing -/

/-- How a value compares with an integer: a truth value counts as one or zero, no order holds for what is not a number, and
what is no number at all has no answer. -/
def compareInt? : Json → Int → Option (Option Ordering)
  | bool b, n => some (some (compare (if b then 1 else 0) n))
  | int m, n => some (some (compare m n))
  | float x, n => some (x.compareInt n)
  | _, _ => none

/-- Two numbers have the same value, a truth value counting as one or zero. -/
def sameNumber (x y : Json) : Bool :=
  match x, y with
  | float x, float y => x.same y
  | float x, bool b => x.compareInt (if b then 1 else 0) == some .eq
  | float x, int n => x.compareInt n == some .eq
  | bool b, y => compareInt? y (if b then 1 else 0) == some (some .eq)
  | int n, y => compareInt? y n == some (some .eq)
  | _, _ => false

/-- Both values are what is not a number. By itself it equals nothing, but inside lists and objects it counts as the same. -/
def bothNaN : Json → Json → Bool
  | float .nan, float .nan => true
  | _, _ => false

mutual

/-- Two values are equal. -/
def same : Json → Json → Bool
  | null, null => true
  | str s, str t => s == t
  | arr xs, arr ys => sameItems xs ys
  | obj fs, obj gs => fs.length == gs.length && sameFields fs gs
  | null, _ => false
  | str _, _ => false
  | arr _, _ => false
  | obj _, _ => false
  | x, y => sameNumber x y

/-- Two lists of values are equal, place by place. -/
def sameItems : List Json → List Json → Bool
  | [], [] => true
  | x :: xs, y :: ys => (bothNaN x y || same x y) && sameItems xs ys
  | _, _ => false

/-- Every field has an equal one of the same name among others. -/
def sameFields : List (JsonText × Json) → List (JsonText × Json) → Bool
  | [], _ => true
  | (n, x) :: fs, gs =>
    (match field? gs n with
      | some y => bothNaN x y || same x y
      | none => false) && sameFields fs gs

end

/-- A value that counts as true where a condition is asked for: neither null, nor false, nor zero, nor empty. -/
def isTruthy : Json → Bool
  | null => false
  | bool b => b
  | int n => n != 0
  | float x => !x.isZero
  | str s => !s.isEmpty
  | arr xs => !xs.isEmpty
  | obj fs => !fs.isEmpty

/-! ## Numbers as text -/

/-- An integer in decimal digits. -/
def digits (n : Int) : List Char :=
  if n < 0 then '-' :: Nat.toDigits 10 n.natAbs else Nat.toDigits 10 n.natAbs

/-! ## Values in messages -/

/-- A binary number in a message. -/
def describeFloat : Binary64 → List Char
  | .finite negative m e => Binary64.signText negative ++ Binary64.magnitudeText m e
  | .infinity negative => Binary64.signText negative ++ ['i', 'n', 'f']
  | .nan => ['n', 'a', 'n']

mutual

/-- A value as a message shows it, with its texts between quotation marks. -/
def describe : Json → List Char
  | null => ['N', 'o', 'n', 'e']
  | bool b => if b then ['T', 'r', 'u', 'e'] else ['F', 'a', 'l', 's', 'e']
  | int n => digits n
  | float x => describeFloat x
  | str s => s.quote
  | arr xs => '[' :: (describeItems xs ++ [']'])
  | obj fs => '\x7b' :: (describeFields fs ++ ['\x7d'])

/-- The items of a list in a message. -/
def describeItems : List Json → List Char
  | [] => []
  | [x] => describe x
  | x :: xs => describe x ++ ',' :: ' ' :: describeItems xs

/-- The fields of an object in a message. -/
def describeFields : List (JsonText × Json) → List Char
  | [] => []
  | [(n, x)] => n.quote ++ ':' :: ' ' :: describe x
  | (n, x) :: fs => n.quote ++ ':' :: ' ' :: (describe x ++ ',' :: ' ' :: describeFields fs)

end

/-- A value as it stands in a text: a text as it is, with a replacement character for a surrogate that stands alone, and any
other value as in a message. -/
def display : Json → String
  | str s => s.toString []
  | x => String.ofList (describe x)

mutual

/-- No surrogate stands alone in the texts of a value. -/
def isPaired : Json → Bool
  | str s => s.isString
  | arr xs => isPairedItems xs
  | obj fs => isPairedFields fs
  | _ => true

/-- No surrogate stands alone in the texts of some values. -/
def isPairedItems : List Json → Bool
  | [] => true
  | x :: xs => isPaired x && isPairedItems xs

/-- No surrogate stands alone in the texts of some fields and their names. -/
def isPairedFields : List (JsonText × Json) → Bool
  | [] => true
  | (n, x) :: fs => n.isString && isPaired x && isPairedFields fs

end

/-- The code points of a value that is a text. -/
def codes : Json → List Nat
  | str s => s.codes
  | _ => []

/-- A text with stand-ins for its surrogates. Any other value stays as it is. -/
def withStandIns (m : Text.StandIns) : Json → Json
  | str s => str (s.toString m)
  | x => x

end Json

end Propositional
