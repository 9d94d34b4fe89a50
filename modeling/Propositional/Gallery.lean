import Propositional.Report.Styled

/-!
# The gallery

Examples of what the program does, in sections: tables of formulas in the native notation and in LaTeX, and derivations that
are checked. Each is shown in the style of a configuration.
-/

namespace Propositional.Gallery

open Report

/-- The kinds of example: a table of native formulas, a table of formulas in LaTeX, or a derivation in LaTeX. -/
inductive ExampleKind where
  | table | latex | verify
  deriving DecidableEq, Repr

/-- The kind with a given name. Any other name is that of a table. -/
def ExampleKind.ofName : String → ExampleKind
  | "verify" => .verify
  | "latex" => .latex
  | _ => .table

/-- An example: its kind, its title, and its formulas or its derivation. -/
structure Sample where
  kind : ExampleKind
  title : String
  formulas : List String

/-- A section of the gallery. -/
structure Section where
  title : String
  samples : List Sample

/-- A text of several lines with an empty line before and behind them. -/
def block (lines : List String) : String := String.intercalate "\n" ("" :: lines ++ [""])

/-- The connectives one by one. -/
def basicOperators : Section := ⟨"BASIC OPERATORS", [
  ⟨.table, "Simple AND operation", ["A & B"]⟩,
  ⟨.table, "Simple OR operation", ["A | B"]⟩,
  ⟨.table, "Simple NOT operation", ["!A"]⟩,
  ⟨.table, "Comparing all basic operators", ["A & B", "A | B", "!A"]⟩]⟩

/-- Formulas of several connectives. -/
def compoundExpressions : Section := ⟨"COMPOUND EXPRESSIONS", [
  ⟨.table, "XOR (exclusive OR) using A != B", ["A != B"]⟩,
  ⟨.table, "NAND operation", ["A & B", "!(A & B)"]⟩,
  ⟨.table, "NOR operation", ["A | B", "!(A | B)"]⟩,
  ⟨.table, "Complex expression with precedence", ["A | B & C", "(A | B) & C"]⟩]⟩

/-- Formulas in LaTeX. -/
def latexNotation : Section := ⟨"LATEX NOTATION", [
  ⟨.latex, "Using LaTeX operators", ["A \\land B \\lor C"]⟩,
  ⟨.latex, "Negation in LaTeX", ["\\neg(A \\lor B)"]⟩,
  ⟨.latex, "Constants in LaTeX", ["A \\land \\top \\lor \\bot"]⟩,
  ⟨.latex, "Complement with overline", ["\\overline\x7bA \\land B\x7d", "\\overline\x7bA\x7d \\lor \\overline\x7bB\x7d"]⟩]⟩

/-- Implications and their elimination. -/
def implications : Section := ⟨"IMPLICATION (A → B = !A | B)", [
  ⟨.latex, "Simple implication", ["A \\rightarrow B"]⟩,
  ⟨.latex, "Nested parentheses in implication", ["((A \\lor B)) \\rightarrow C"]⟩,
  ⟨.latex, "Negated expression as antecedent", ["\\neg(A \\lor B) \\rightarrow C"]⟩,
  ⟨.latex, "Constant as antecedent", ["\\top \\rightarrow A"]⟩,
  ⟨.latex, "Chained implication", ["A \\rightarrow B \\rightarrow C"]⟩]⟩

/-- Equivalences. -/
def biconditionals : Section := ⟨"BICONDITIONAL (A ↔ B)", [
  ⟨.latex, "Biconditional operator", ["A \\leftrightarrow B"]⟩,
  ⟨.latex, "Comparing A ↔ B with (A → B) ∧ (B → A)", [
    "A \\leftrightarrow B",
    "(A \\rightarrow B) \\land (B \\rightarrow A)"]⟩]⟩

/-- Laws of Boolean algebra as derivations of two steps. -/
def booleanLaws : Section := ⟨"BOOLEAN ALGEBRA LAWS", [
  ⟨.verify, "DeMorgan's Law #1", ["\\neg(A \\lor B) &= \\neg A \\land \\neg B \\\\"]⟩,
  ⟨.verify, "DeMorgan's Law #2", ["\\neg(A \\land B) &= \\neg A \\lor \\neg B \\\\"]⟩,
  ⟨.verify, "Distributive Law", ["A \\land (B \\lor C) &= (A \\land B) \\lor (A \\land C) \\\\"]⟩,
  ⟨.verify, "Absorption Law", ["A \\lor (A \\land B) &= A \\\\"]⟩,
  ⟨.verify, "Idempotent Law", ["A \\land A &= A \\\\"]⟩,
  ⟨.verify, "Double Negation", ["\\neg\\neg A &= A \\\\"]⟩,
  ⟨.verify, "Associativity", ["(A \\lor B) \\lor C &= A \\lor (B \\lor C) \\\\"]⟩,
  ⟨.verify, "Commutativity", ["A \\land B &= B \\land A \\\\"]⟩]⟩

/-- Derivations of several lines. -/
def longDerivations : Section := ⟨"COMPLEX MULTI-STEP PROOFS", [
  ⟨.verify, "Simplification proof", [
    block [
      "  (A \\lor B) \\land (A \\lor \\neg B)",
      "    &= A \\lor (B \\land \\neg B) &\\text\x7b(Distributive)\x7d \\\\",
      "    &= A \\lor \\bot &\\text\x7b(Contradiction)\x7d \\\\",
      "    &= A &\\text\x7b(Identity)\x7d \\\\"]]⟩,
  ⟨.verify, "Contrapositive equivalence", [
    block [
      "  A \\rightarrow B",
      "    &= \\neg A \\lor B &\\text\x7b(Implication)\x7d \\\\",
      "    &= B \\lor \\neg A &\\text\x7b(Commutative)\x7d \\\\",
      "    &= \\neg B \\rightarrow \\neg A &\\text\x7b(Contrapositive)\x7d \\\\"]]⟩,
  ⟨.verify, "Consensus theorem", [
    block [
      "  (A \\land B) \\lor (\\neg A \\land C) \\lor (B \\land C)",
      "    &= (A \\land B) \\lor (\\neg A \\land C) \\\\"]]⟩]⟩

/-- Sentences of everyday life. -/
def everydayLogic : Section := ⟨"REAL-WORLD LOGIC", [
  ⟨.latex, "If it rains, I bring an umbrella (R → U)", ["R \\rightarrow U"]⟩,
  ⟨.latex, "Alarm: (M ∧ S) → A", ["(M \\land S) \\rightarrow A"]⟩,
  ⟨.latex, "I exercise iff I'm not tired: E ↔ ¬T", ["E \\leftrightarrow \\neg T"]⟩]⟩

/-- Formulas and a derivation at the edges. -/
def edgeCases : Section := ⟨"EDGE CASES", [
  ⟨.table, "Tautology (always true)", ["A | !A"]⟩,
  ⟨.table, "Contradiction (always false)", ["A & !A"]⟩,
  ⟨.table, "Four variables", ["(A & B) | (C & D)"]⟩,
  ⟨.table, "Deeply nested expression", ["!((A | B) & !(C | !D))"]⟩,
  ⟨.verify, "A wrong step is caught", ["A \\land B &= A \\lor B"]⟩]⟩

/-- The sections in order. -/
def sections : List Section := [
  basicOperators, compoundExpressions, latexNotation, implications, biconditionals, booleanLaws, longDerivations,
  everydayLogic, edgeCases]

/-! ## Showing the gallery -/

/-- Why an example cannot be shown: it is a derivation without a text, its formulas fail, or the glyphs do. -/
inductive Trouble where
  | noDerivation
  | logic (error : LogicError)
  | glyphs (fault : GlyphFault)

/-- The prints of a report. Text is printed as it is. -/
def printsOf : Styled → List Print
  | .text s => [.verbatim s]
  | .prints ps => ps

/-- The prints that show how a formula in LaTeX was read. -/
def readingPrints (source native : String) : List Print := [
  .unhighlighted s!"   LaTeX:     {escaped source}",
  .unhighlighted s!"   Converted: {escaped native}"]

/-- The prints of an example. -/
def runSample (c : Config) (e : Sample) : Logged Trouble (List Print) :=
  match e.kind with
  | .verify =>
    match e.formulas with
    | [] => .ofExcept (.error .noDerivation)
    | s :: _ => do
      let v ← (Verdict.ofDerivation c.isStrict s).mapError .logic
      let r ← .ofExcept ((styledVerdict c v).mapError .glyphs)
      return printsOf r
  | .latex => do
    let t ← (TruthTable.ofLatex c.isStrict e.formulas).mapError .logic
    let r ← .ofExcept ((styledTable c t).mapError .glyphs)
    return (List.zipWith readingPrints t.headers t.formulas).flatten ++ printsOf r
  | .table => do
    let t ← .ofExcept ((TruthTable.ofFormulas e.formulas).mapError fun e => .logic (.formula e))
    let r ← .ofExcept ((styledTable c t).mapError .glyphs)
    return printsOf r

/-- The prints of an example under its title. -/
def titledSample (c : Config) (e : Sample) : Logged Trouble (List Print) := do
  let ps ← runSample c e
  return .text s!"[bold]{escaped e.title}:[/]" :: ps ++ [.blank]

/-- The prints of a section under its title. -/
def runSection (c : Config) (s : Section) : Logged Trouble (List Print) := do
  let ps ← s.samples.mapM (titledSample c)
  return .text s!"\n[bold cyan]{escaped s.title}[/]\n" :: ps.flatten

/-- The texts of the gallery. -/
def texts : List String := sections.flatMap fun s => s.title :: s.samples.flatMap fun e => e.title :: e.formulas

/-- The prints of the whole gallery. -/
def run (c : Config) : Logged Trouble (List Print) := do
  let ps ← sections.mapM (runSection c)
  return .rule "[bold]TRUTH TABLE GENERATOR - EXAMPLES[/]" :: ps.flatten ++ [.rule "[bold]END OF EXAMPLES[/]"]

end Propositional.Gallery
