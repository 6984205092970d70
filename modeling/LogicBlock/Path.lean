/-
**File paths as text.**

Paths are joined and shortened as text, without asking whether the files exist and without
resolving `..`: a joined path shows the parts that it was made from.

Main definitions:

* `Path.join` — a path seen from a directory;
* `Path.parent` — the directory part of a path.
-/

set_option relaxedAutoImplicit false
set_option autoImplicit false

namespace LogicBlock

namespace Path

/-- Whether a path starts at the root. -/
def isAbsolute (p : String) : Bool :=
  p.toList.head? = some '/'

/-- The path `p` as seen from the directory `base`.  An absolute path stays as it is; else a slash
is put between the two, unless the base is empty or ends in one. -/
def join (base p : String) : String :=
  if isAbsolute p then p
  else
    match base.toList.getLast? with
    | none => p
    | some '/' => base ++ p
    | some _ => base ++ "/" ++ p

/-- A piece between slashes that names nothing: an empty one or a single dot. -/
def isIdle (piece : List Char) : Bool :=
  piece = [] || piece = ['.']

/-- The part at the front of a path that is more than a separator: the root, or a leading dot. -/
def front : List Char → List Char
  | '/' :: _ => ['/']
  | ['.'] => ['.']
  | '.' :: '/' :: _ => ['.']
  | _ => []

/-- The directory part of a path: what stands in front of its last component.  Separators and single
dots at the end do not count as components.  A path of one component has an empty directory part,
and so has a path of none. -/
def parent (p : String) : String :=
  let lead := front p.toList
  let pieces := ((p.toList.drop lead.length).splitOn '/').reverse.dropWhile isIdle
  match pieces with
  | [] => ""
  | _ :: before =>
    String.ofList (lead ++ ['/'].intercalate (before.dropWhile isIdle).reverse)

@[simp] theorem join_empty (p : String) : join "" p = p := by
  simp [join]

end Path

end LogicBlock
