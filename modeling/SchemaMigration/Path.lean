import SchemaMigration.Text

/-!
This module contains paths as texts: joining, and the parts that a path has.
-/

namespace SchemaMigration

abbrev Path := Text

namespace Path

/-- A path below a directory. No slash is added behind one, or to the empty path. -/
def join (directory : Path) (name : Text) : Path :=
  match directory.getLast? with
  | none => name
  | some last => if last == byte '/' then directory ++ name else directory ++ byte '/' :: name

def fileName (p : Path) : Text := (p.reverse.takeWhile (· != byte '/')).reverse

/--
The path without its last name: the slashes before the name go with it, except at the beginning of
the path.
-/
def parent (p : Path) : Path :=
  match p.reverse.dropWhile (· != byte '/') with
  | [] => []
  | slashes =>
    match slashes.dropWhile (· == byte '/') with
    | [] => [byte '/']
    | kept => kept.reverse

/--
The extension of a name: its last dot and what stands behind it. A dot at the beginning is not
followed by an extension.
-/
def extension (name : Text) : Text :=
  if name == ascii "." || name == ascii ".." then []
  else
    let tail := (name.reverse.takeWhile (· != byte '.')).reverse
    if tail.length + 1 < name.length then byte '.' :: tail else []

end Path

end SchemaMigration
