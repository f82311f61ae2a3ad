import Offside.Text

/-!
# Folders

A folder that holds files and no further folders, and what is found when a path is followed from
inside it. Only this folder is known: whatever lies outside it is a folder in which no name is
found.

* `ReadError`: why there is nothing to read;
* `Folder.read`: the bytes at the end of a path.
-/

namespace Offside

/-! ### Reasons -/

/-- Why the text of a file cannot be had. -/
inductive ReadError
  /-- The system refuses, with a reason and a code of its own. -/
  | refused (reason : String) (code : Nat)
  /-- The bytes of the file are not the encoding of a text. -/
  | notText
  deriving DecidableEq, Repr

namespace ReadError

/-- There is nothing of that name. -/
def notFound : ReadError := .refused "No such file or directory" 2

/-- A path goes on after a file. -/
def notDirectory : ReadError := .refused "Not a directory" 20

/-- A path ends at a folder. -/
def isDirectory : ReadError := .refused "Is a directory" 21

/-- The wording of a reason. -/
def message : ReadError → String
  | .refused reason code => reason ++ " (os error " ++ toString code ++ ")"
  | .notText => "stream did not contain valid UTF-8"

end ReadError

/-! ### Paths -/

/-- A folder that holds files and no folders. -/
structure Folder where
  files : List (String × ByteArray)

namespace Folder

/-- The components of a path; there is one more than there are slashes. -/
def components : List Char → List (List Char)
  | [] => [[]]
  | c :: cs =>
    match components cs with
    | [] => [[c]]
    | name :: names => if c = '/' then [] :: name :: names else (c :: name) :: names

/-- Where a part of a path leads to. -/
inductive Spot
  /-- The folder itself. -/
  | here
  /-- A folder that is not this one. -/
  | outside
  | file (bytes : ByteArray)

/-- Follow one component of a path. -/
def follow (folder : Folder) (spot : Spot) (name : String) : Except ReadError Spot :=
  match spot with
  | .file _ => .error .notDirectory
  | .outside =>
    if name = "" || name = "." || name = ".." then .ok .outside else .error .notFound
  | .here =>
    if name = "" || name = "." then .ok .here
    else if name = ".." then .ok .outside
    else
      match folder.files.lookup name with
      | some bytes => .ok (.file bytes)
      | none => .error .notFound

/-- The spot that a path starts from. -/
def origin (path : List Char) : Spot :=
  if path.head? = some '/' then .outside else .here

/-- The bytes of the file that a path leads to. -/
def read (folder : Folder) (path : String) : Except ReadError ByteArray := do
  let chars := path.toList
  if chars.isEmpty then throw .notFound
  match ← ((components chars).map String.ofList).foldlM folder.follow (origin chars) with
  | .file bytes => return bytes
  | _ => throw .isDirectory

end Folder

end Offside
