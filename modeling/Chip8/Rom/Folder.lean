import Chip8.Rom

/-!
# Program images in files

A folder holds files under paths relative to it. An image that is read from a file is named after
the file without its extension. A path that leads to no file is told apart from one that leads to a
folder.
-/
namespace Chip8

namespace Path

/-- The names on a path. Empty names and single dots lead nowhere and are left out. -/
def parts (path : String) : List String :=
  (path.splitOn "/").filter fun part => part ≠ "" ∧ part ≠ "."

/-- A file name without its extension, which starts at the last dot unless the name does. -/
def stem (name : List Char) : List Char :=
  match (name.reverse.dropWhile (· ≠ '.')).tail with
  | [] => name
  | before => before.reverse

end Path

inductive ReadFault where
  | notFound
  | isDirectory
  deriving DecidableEq, Repr

/-- The files below a folder, each with the names that lead to it. -/
structure Folder where
  files : List (List String × List UInt8)

namespace Folder

def empty : Folder := ⟨[]⟩

/-- Puts a file into a folder, in front of a file that was there under the same path. -/
def write (f : Folder) (path : String) (data : List UInt8) : Folder :=
  ⟨(Path.parts path, data) :: f.files⟩

/-- The bytes of a file. A path that only climbs leads to the folder or to one above it. -/
def read (f : Folder) (path : String) : Except ReadFault (List UInt8) :=
  let parts := Path.parts path
  if parts.all (· = "..") then .error .isDirectory
  else match f.files.lookup parts with
    | some data => .ok data
    | none => .error .notFound

end Folder

def Rom.ofFile (f : Folder) (path : String) : Except ReadFault Rom :=
  (f.read path).map fun data =>
    ⟨String.ofList (Path.stem (((Path.parts path).getLastD "").toList)), data⟩

end Chip8
