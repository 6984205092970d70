/-
**Reading files.**

Reading a file gives its text or a reason why there is none.  All that the library needs of a file
system is such a function from paths to results.  A file tree is one: it holds the files below the
current directory, and finds a file by walking along the components of its path.  A walk looks at
one component at a time, so of several faults of a path the leftmost is the one that is reported;
what is wrong with a path as a whole comes first.

Main definitions:

* `ReadError`, `ReadError.message` — why a path cannot be read as text;
* `FileReader` — a function from paths to texts or errors;
* `maxNameBytes`, `maxPathBytes` — how long names and paths may be;
* `FileTree`, `FileTree.read` — files below the current directory, as a reader.
-/

set_option relaxedAutoImplicit false
set_option autoImplicit false

namespace LogicBlock

/-- Why a path cannot be read as text. -/
inductive ReadError where
  | notFound
  | notADirectory
  | isADirectory
  /-- The bytes of the file are not the UTF-8 form of a text. -/
  | notText
  /-- The path holds the character that ends paths. -/
  | nulInPath
  /-- The path, or a name in it, has too many bytes. -/
  | nameTooLong
  | other (description : String)
  deriving DecidableEq

/-- The text of a read error. -/
def ReadError.message : ReadError → String
  | notFound => "No such file or directory (os error 2)"
  | notADirectory => "Not a directory (os error 20)"
  | isADirectory => "Is a directory (os error 21)"
  | notText => "stream did not contain valid UTF-8"
  | nulInPath => "file name contained an unexpected NUL byte"
  | nameTooLong => "File name too long (os error 36)"
  | other description => description

/-- The most bytes that one name in a path may have. -/
def maxNameBytes : Nat := 255

/-- The most bytes that a path may have. -/
def maxPathBytes : Nat := 4095

/-- Whether a path holds the character that ends paths. -/
def hasNul (path : String) : Bool :=
  path.toList.contains '\x00'

/-- The texts that paths lead to. -/
abbrev FileReader := String → Except ReadError String

/-- The reader that finds no file at all. -/
def FileReader.none : FileReader :=
  fun _ => .error .notFound

/-- Files below the current directory, each under the names that lead to it.  Of several files with
one path the first counts. -/
structure FileTree where
  files : List (List String × ByteArray)

namespace FileTree

/-- The components of a path that name something. -/
def names (p : String) : List String :=
  ((p.toList.splitOn '/').map String.ofList).filter fun piece => piece != "" && piece != "."

/-- The tree of files that are written one after the other. -/
def ofFiles (files : List (String × ByteArray)) : FileTree :=
  ⟨(files.map fun f => (names f.1, f.2)).reverse⟩

/-- The file at a place. -/
def file? (t : FileTree) (place : List String) : Option ByteArray :=
  (t.files.find? (·.1 = place)).map (·.2)

/-- Whether a place is a directory: the current one, or one on the way to a file. -/
def isDirectory (t : FileTree) (place : List String) : Bool :=
  place.isEmpty || t.files.any fun f => place.isPrefixOf f.1 && place.length < f.1.length

/-- Where a walk stands: in a directory of the tree, in a directory outside of it, or at a file. -/
inductive Walk where
  | inside (place : List String)
  | outside
  | atFile (bytes : ByteArray)

/-- Goes along one component of a path.  A name is looked up in a directory only, and its length is
checked there. -/
def Walk.step (t : FileTree) : Walk → String → Except ReadError Walk
  | .atFile _, _ => .error .notADirectory
  | .outside, piece =>
    if piece = "" || piece = "." || piece = ".." then .ok .outside
    else if maxNameBytes < piece.utf8ByteSize then .error .nameTooLong
    else .error .notFound
  | .inside place, piece =>
    if piece = "" || piece = "." then .ok (.inside place)
    else if piece = ".." then
      if place.isEmpty then .ok .outside else .ok (.inside place.dropLast)
    else if maxNameBytes < piece.utf8ByteSize then .error .nameTooLong
    else
      let next := place ++ [piece]
      match t.file? next with
      | some bytes => .ok (.atFile bytes)
      | none => if t.isDirectory next then .ok (.inside next) else .error .notFound

/-- Goes along the components of a path. -/
def Walk.along (t : FileTree) (w : Walk) : List String → Except ReadError Walk
  | [] => .ok w
  | piece :: rest =>
    match w.step t piece with
    | .ok next => next.along t rest
    | .error e => .error e

/-- The text at a path.  Relative paths start at the current directory, absolute ones outside of the
tree. -/
def read (t : FileTree) : FileReader := fun path =>
  let pieces := (path.toList.splitOn '/').map String.ofList
  if hasNul path then .error .nulInPath
  else if path = "" then .error .notFound
  else if maxPathBytes < path.utf8ByteSize then .error .nameTooLong
  else
    match (if path.toList.head? = some '/' then Walk.outside else .inside []).along t pieces with
    | .error e => .error e
    | .ok (.atFile bytes) =>
      match String.fromUTF8? bytes with
      | some text => .ok text
      | none => .error .notText
    | .ok _ => .error .isADirectory

end FileTree

end LogicBlock
