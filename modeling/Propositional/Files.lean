import Propositional.Text.Decoding
import Propositional.Text.Split

/-!
# Files

A tree of directories and files, and what a path leads to in it. A path is read part by part from the root or from the working
directory. The step through a part fails if its name is too long, if there is nothing of that name, or if the path goes on
behind a file; the first step that fails decides.
-/

namespace Propositional

/-- Why a path leads to no text: what it leads to is not opened, with the number and the wording that systems give to the reason,
or what it holds is no text that can be read. -/
inductive PathFault where
  | refused (number : Nat) (wording : String)
  | unreadable (message : String)
  deriving DecidableEq, Repr

namespace PathFault

/-- There is nothing of the name. -/
def missing : PathFault := refused 2 "No such file or directory"

/-- The path goes on behind a file. -/
def notDirectory : PathFault := refused 20 "Not a directory"

/-- The path ends in a directory. -/
def isDirectory : PathFault := refused 21 "Is a directory"

/-- The path or one of its names is too long. -/
def nameTooLong : PathFault := refused 36 "File name too long"

/-- The wording of the fault of a path. -/
def message (path : String) : PathFault → String
  | refused number wording => s!"[Errno {number}] {wording}: {Text.quoted path}"
  | unreadable message => message

end PathFault

/-- The text of a file with the given bytes. -/
def textOfBytes (bytes : List UInt8) : Except PathFault String :=
  match Text.decode bytes with
  | .ok s => .ok (String.ofList s)
  | .error f => .error (.unreadable f.message)

/-- The parts of a path from the root on. -/
abbrev Place := List (List Char)

/-- What stands at a place: a directory, or a file with its text. -/
inductive FileNode where
  | directory
  | file (text : String)
  deriving DecidableEq, Repr

/-- A tree of directories and files, by their places. -/
structure FileTree where
  nodes : List (Place × FileNode) := []
  workingDirectory : Place := []
  deriving DecidableEq, Repr

namespace FileTree

/-- The greatest length of a name, in bytes. -/
def nameLimit : Nat := 255

/-- The length that a path stays below, in bytes. -/
def pathLimit : Nat := 4096

/-- The number of bytes of a name. -/
def byteLength (name : List Char) : Nat := name.foldl (fun n c => n + c.utf8Size) 0

/-- What stands at a place. The root is a directory. -/
def node? (t : FileTree) (place : Place) : Option FileNode :=
  if place.isEmpty then some .directory else t.nodes.lookup place

/-- Reads the file at the end of the parts of a path, which start at a directory. -/
def walk (t : FileTree) (here : Place) : List (List Char) → Except PathFault String
  | [] => .error .isDirectory
  | part :: rest =>
    if part.isEmpty || part = ['.'] then t.walk here rest
    else if part = ['.', '.'] then t.walk here.dropLast rest
    else if nameLimit < byteLength part then .error .nameTooLong
    else
      match t.node? (here ++ [part]) with
      | none => .error .missing
      | some .directory => t.walk (here ++ [part]) rest
      | some (.file text) => if rest.isEmpty then .ok text else .error .notDirectory

/-- Reads the file that a path leads to. -/
def read (t : FileTree) (path : String) : Except PathFault String :=
  if path.isEmpty then .error .missing
  else if pathLimit ≤ byteLength path.toList then .error .nameTooLong
  else t.walk (if path.toList.head? = some '/' then [] else t.workingDirectory) (Text.splitAtChar '/' path.toList)

/-- The directories at and above a place, without the root. -/
def directoriesTo (place : Place) : List (Place × FileNode) :=
  (List.range place.length).map fun n => (place.take (n + 1), .directory)

/-- The tree with one more file, and the directories that it needs. -/
def addFile (t : FileTree) (place : Place) (text : String) : FileTree :=
  { t with nodes := (place, .file text) :: directoriesTo place.dropLast ++ t.nodes }

/-- The directories that a system has below its root. -/
def systemDirectories : List String := [
  "bin", "boot", "dev", "etc", "home", "lib", "media", "mnt", "opt", "proc", "root", "run", "sbin", "srv", "sys", "tmp", "usr",
  "var"]

/-- A tree with the directories of a system, and in it a working directory of its own with the given files, their names being
paths from there. The name of the working directory is not known, and no path can have it. -/
def ofFiles (files : List (String × String)) : FileTree :=
  let working : Place := ["tmp".toList, []]
  let system := systemDirectories.map fun name => ([name.toList], FileNode.directory)
  let empty : FileTree := { nodes := (working, .directory) :: system, workingDirectory := working }
  let withNull := empty.addFile ["dev".toList, "null".toList] ""
  files.foldl (fun t f => t.addFile (working ++ Text.splitAtChar '/' f.1.toList) f.2) withNull

end FileTree

end Propositional
