import Propositional.Config.EntryFile

/-!
# References between settings

A value of an environment file may refer to other settings by name, and to what stands for them where they are not set. A
variable of the environment comes before an entry of the file, and only the entries above a value can be referred to.
-/

namespace Propositional.EntryFile

/-- The reference at the start of a text: the name in it, the text that stands for it where it is not set, and the length. -/
def reference? : List Char → Option (List Char × List Char × Nat)
  | '$' :: '{' :: cs =>
    let name := cs.takeWhile fun c => c != '}' && c != ':'
    match cs.drop name.length with
    | '}' :: _ => some (name, [], name.length + 3)
    | ':' :: '-' :: r =>
      let usual := r.takeWhile (· != '}')
      if usual.length < r.length then some (name, usual, name.length + usual.length + 5) else none
    | _ => none
  | _ => none

/-- The rest of a text with its references replaced, of which `skip` characters belong to a reference. A name may be set to
nothing, which is not the same as not being set. -/
def expandFrom (setting : String → Option (Option String)) (skip : Nat) : List Char → List Char
  | [] => []
  | c :: cs =>
    match skip with
    | k + 1 => expandFrom setting k cs
    | 0 =>
      match reference? (c :: cs) with
      | some (name, usual, length) =>
        let value :=
          match setting (String.ofList name) with
          | some s => (s.getD "").toList
          | none => usual
        value ++ expandFrom setting (length - 1) cs
      | none => c :: expandFrom setting 0 cs

/-- A text with its references replaced. -/
def expand (setting : String → Option (Option String)) (s : String) : String :=
  String.ofList (expandFrom setting 0 s.toList)

/-- What a name is set to by the variables of the environment or by entries. -/
def settingIn (settings : List (String × String)) (es : List Entry) (name : String) : Option (Option String) :=
  ((settings.lookup name).map some).or (es.reverse.lookup name)

/-- The entries of a file with the references in their values replaced, from the first to the last. -/
def expandAll (settings : List (String × String)) (es : List Entry) : List Entry :=
  es.foldl (fun done e => done ++ [(e.1, e.2.map (expand (settingIn settings done)))]) []

end Propositional.EntryFile
