/-
A folder held in memory: files under names, and no folder inside. A path that starts there is followed one step at a
time, and the first step that cannot be made says why there is nothing to read at its end. Nothing is known of what lies
outside the folder, except that there are folders.
-/
import Arbor.Command.Input

namespace Arbor.Command

/-- files under their names -/
structure Folder where
  files : List (String × ByteArray)

/-- where a path has led so far -/
inductive Place where
  /-- in the folder itself -/
  | inside
  /-- in some folder around it or elsewhere -/
  | outside
  /-- at a file -/
  | file (bytes : ByteArray)

/-- most bytes that a name may have -/
def nameLimit : Nat := 255

/-- most bytes that a whole path may have -/
def pathLimit : Nat := 4095

namespace Folder

/-- the step from a folder to what has the name there -/
def enter (f : Folder) (inside : Bool) (name : String) : Except ReadProblem Place :=
  if name = "" ∨ name = "." then .ok (if inside then .inside else .outside)
  else if name = ".." then .ok .outside
  else if nameLimit < name.utf8ByteSize then .error .nameTooLong
  else if inside then
    match f.files.lookup name with
    | some bytes => .ok (.file bytes)
    | none => .error .missing
  else .error .missing

/-- one step of a path -/
def step (f : Folder) (place : Place) (name : String) : Except ReadProblem Place :=
  match place with
  | .file _ => .error .notADirectory
  | .inside => f.enter true name
  | .outside => f.enter false name

/-- the bytes at the end of a path; two slashes in a row are one, and a slash at the end asks for a folder -/
def read (f : Folder) (path : String) : Except ReadProblem ByteArray := do
  if pathLimit < path.utf8ByteSize then throw .nameTooLong
  let start := if path.startsWith "/" then Place.outside else Place.inside
  match ← (path.splitOn "/").foldlM f.step start with
  | .file bytes => return bytes
  | _ => throw .directory

end Folder

end Arbor.Command
