import TailLisp.Text.Quoted

/-!
# TailLisp.FileTree

**Files and folders.** A `FileTree` is what a run can see of a file system: the files with their
text, the folders, and the folder that relative paths begin at. `FileTree.find` follows a path
step by step, so that every folder on the way has to be there; `FileTree.absolute` only looks at
the text of a path.
-/

namespace TailLisp

/-- A place in a file system, from the root on. -/
abbrev Place := List String

/-- An absolute path without `.` and `..` in it. A path that begins with exactly two slashes keeps
both. -/
structure Path where
  parts : Place
  twoSlashes : Bool := false
  deriving DecidableEq, Repr

/-- The text of a path. -/
def Path.text (path : Path) : String :=
  (if path.twoSlashes then "//" else "/") ++ String.intercalate "/" path.parts

/-- A path with a name added to it. -/
def Path.child (path : Path) (name : String) : Path := { path with parts := path.parts ++ [name] }

/-- The folder that a path lies in; the root lies in itself. -/
def Path.parent (path : Path) : Path := { path with parts := path.parts.dropLast }

/-- What a path leads to. -/
inductive Entry where
  | file (text : String)
  | folder (place : Place)
  deriving DecidableEq, Repr

/-- Why a file cannot be opened. -/
inductive FileFault where
  | missing (path : String)
  /-- A file stands where the path needs a folder. -/
  | notFolder (path : String)
  | isFolder (path : String)
  | nameTooLong (path : String)
  /-- A path has a character that no path can have. -/
  | nullCharacter
  deriving DecidableEq, Repr

/-- The wording of a fault. -/
def FileFault.message : FileFault → String
  | .missing path => "[Errno 2] No such file or directory: " ++ Text.quoted path
  | .notFolder path => "[Errno 20] Not a directory: " ++ Text.quoted path
  | .isFolder path => "[Errno 21] Is a directory: " ++ Text.quoted path
  | .nameTooLong path => "[Errno 36] File name too long: " ++ Text.quoted path
  | .nullCharacter => "embedded null byte"

/-- Is it a fault of the file system, as opposed to one of the path itself? -/
def FileFault.isExternal : FileFault → Bool
  | .nullCharacter => false
  | _ => true

/-- Files and folders, and the folder that relative paths begin at. The folders above a file or
folder need not be named. -/
structure FileTree where
  files : List (Place × String) := []
  folders : List Place := []
  here : Place := []
  deriving Repr

namespace FileTree

/-! ### Following a path -/

/-- Is there a folder at a place? -/
def isFolder (tree : FileTree) (place : Place) : Bool :=
  place.isEmpty || place.isPrefixOf tree.here || tree.folders.any place.isPrefixOf
    || tree.files.any fun (file, _) => place.isPrefixOf file && place != file

/-- What stands at a place. -/
def entryAt? (tree : FileTree) (place : Place) : Option Entry :=
  match tree.files.lookup place with
  | some text => some (.file text)
  | none => if tree.isFolder place then some (.folder place) else none

/-- The largest size of a name in bytes. -/
def longestName : Nat := 255

/-- The largest size of a path in bytes. -/
def longestPath : Nat := 4095

/-- One step of a path. -/
def step (tree : FileTree) (path : String) (entry : Entry) (name : String) :
    Except FileFault Entry :=
  match entry with
  | .file _ => .error (.notFolder path)
  | .folder place =>
    if name = "" || name = "." then .ok entry
    else if name = ".." then .ok (.folder place.dropLast)
    else if longestName < name.utf8ByteSize then .error (.nameTooLong path)
    else
      match tree.entryAt? (place ++ [name]) with
      | some entry => .ok entry
      | none => .error (.missing path)

/-- What a path leads to. The empty path leads nowhere. -/
def find (tree : FileTree) (path : String) : Except FileFault Entry :=
  if path.toList.contains (Char.ofNat 0) then .error .nullCharacter
  else if path.isEmpty then .error (.missing path)
  else if longestPath < path.utf8ByteSize then .error (.nameTooLong path)
  else
    let start := if path.startsWith "/" then [] else tree.here
    (path.splitOn "/").foldlM (tree.step path) (.folder start)

/-- Does a path lead to something? -/
def pathExists (tree : FileTree) (path : String) : Bool := (tree.find path).isOk

/-- Does a path lead to a file? -/
def isFile (tree : FileTree) (path : String) : Bool :=
  match tree.find path with
  | .ok (.file _) => true
  | _ => false

/-! ### Reading -/

/-- A text in which every way to end a line is a line feed. -/
def unixLines : List Char → List Char
  | [] => []
  | '\r' :: '\n' :: cs => '\n' :: unixLines cs
  | '\r' :: cs => '\n' :: unixLines cs
  | c :: cs => c :: unixLines cs

/-- The text of a file. -/
def read (tree : FileTree) (path : String) : Except FileFault String := do
  match ← tree.find path with
  | .file text => return String.ofList (unixLines text.toList)
  | .folder _ => throw (.isFolder path)

/-! ### Paths as text -/

/-- Add a part of a path to the parts before it. -/
def joinPart (parts : Place) (part : String) : Place :=
  if part = "" || part = "." then parts
  else if part = ".." then parts.dropLast
  else parts ++ [part]

/-- The absolute path that a text means, whether it leads to something or not. -/
def absolute (tree : FileTree) (path : String) : Path :=
  let start := if path.startsWith "/" then [] else tree.here
  { parts := (path.splitOn "/").foldl joinPart start
    twoSlashes := path.startsWith "//" && !path.startsWith "///" }

/-- The last part of a path. -/
def baseName (path : String) : String := (path.splitOn "/").getLastD ""

/-- A path and the folders above it, innermost first. -/
def ancestors (path : Path) : List Path :=
  (List.range (path.parts.length + 1)).reverse.map fun n =>
    { path with parts := path.parts.take n }

/-- The innermost folder from a path upward that holds a file of the given name. -/
def findUp (tree : FileTree) (name : String) (path : Path) : Option Path :=
  (ancestors path).find? fun folder => tree.isFile (folder.child name).text

end FileTree

end TailLisp
