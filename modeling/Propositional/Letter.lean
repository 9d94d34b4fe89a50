/-!
# Letters

A propositional variable is one capital letter of the Latin alphabet: `AB` is two variables. The letters of a text are listed
in alphabetical order, each once, whatever else the text holds.
-/

namespace Propositional

/-- The capital letters in alphabetical order. -/
def alphabet : List Char :=
  ['A', 'B', 'C', 'D', 'E', 'F', 'G', 'H', 'I', 'J', 'K', 'L', 'M', 'N', 'O', 'P', 'Q', 'R', 'S', 'T', 'U', 'V', 'W', 'X',
    'Y', 'Z']

/-- The letters that occur in a text, in alphabetical order. -/
def lettersIn (s : List Char) : List Char := alphabet.filter (s.contains ·)

/-- The letters that occur in a formula. -/
def letters (formula : String) : List Char := lettersIn formula.toList

/-- The letters that occur in any of several formulas. -/
def lettersOfAll (formulas : List String) : List Char :=
  alphabet.filter fun x => formulas.any fun f => f.toList.contains x

end Propositional
