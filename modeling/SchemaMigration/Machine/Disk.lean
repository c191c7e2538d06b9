import SchemaMigration.World

/-!
This module contains a disk: a tree of directories and files, and what the operations of a file
system do to it. Errors are those of a file system with names of at most 255 bytes and paths of less
than 4096 bytes.
-/

namespace SchemaMigration

/-- A directory: its entries one after another, and below each directory among them its own. -/
inductive Directory where
  | empty
  | file (name : Text) (content : Text) (rest : Directory)
  | directory (name : Text) (inner : Directory) (rest : Directory)
  deriving DecidableEq, Repr

inductive Node where
  | file (content : Text)
  | directory (entries : Directory)
  deriving DecidableEq, Repr

/-- A place on a disk: the names from the root down. -/
abbrev Place := List Text

structure Disk where
  root : Directory
  deriving DecidableEq, Repr

namespace Directory

def entry? : Directory → Text → Option Node
  | empty, _ => none
  | file other content rest, name =>
    if other == name then some (.file content) else rest.entry? name
  | directory other inner rest, name =>
    if other == name then some (.directory inner) else rest.entry? name

def drop : Directory → Text → Directory
  | empty, _ => empty
  | file other content rest, name =>
    if other == name then rest.drop name else file other content (rest.drop name)
  | directory other inner rest, name =>
    if other == name then rest.drop name else directory other inner (rest.drop name)

def add (d : Directory) (name : Text) : Node → Directory
  | .file content => file name content (d.drop name)
  | .directory inner => directory name inner (d.drop name)

/--
The names in a directory, each with whether it is a regular file. An entry that is hidden by an
earlier one of the same name does not count.
-/
def names : Directory → List (Text × Bool)
  | empty => []
  | file name _ rest => (name, true) :: rest.names.filter (·.1 != name)
  | directory name _ rest => (name, false) :: rest.names.filter (·.1 != name)

theorem nodup_names (d : Directory) : (d.names.map (·.1)).Nodup := by
  have hcons : ∀ (name : Text) (isRegular : Bool) (others : List (Text × Bool)),
      (others.map (·.1)).Nodup →
      (((name, isRegular) :: others.filter (·.1 != name)).map (·.1)).Nodup := by
    intro name isRegular others hothers
    rw [List.map_cons, List.nodup_cons]
    refine ⟨by simp, (List.filter_sublist.map _).nodup hothers⟩
  induction d with
  | empty => exact List.nodup_nil
  | file name content rest ih => exact hcons name true _ ih
  | directory name inner rest _ ih => exact hcons name false _ ih

def listing (d : Directory) : World.Listing := ⟨d.names, d.nodup_names⟩

/--
Every path in a directory and below it with the size of each file, put before a list. The paths
begin with the given text.
-/
def paths (start : Path) (after : List (Path × Option Nat)) : Directory → List (Path × Option Nat)
  | empty => after
  | file name content rest => rest.paths start ((start ++ name, some content.length) :: after)
  | directory name inner rest =>
    rest.paths start ((start ++ name, none) :: inner.paths (start ++ name ++ [byte '/']) after)

def get? (d : Directory) : Place → Option Node
  | [] => some (.directory d)
  | name :: rest =>
    match d.entry? name with
    | none => none
    | some (.file content) => if rest.isEmpty then some (.file content) else none
    | some (.directory inner) => inner.get? rest

/-- Puts something in a place, whatever the place holds. All but its last name must be there. -/
def set (d : Directory) (node : Node) : Place → Directory
  | [] => d
  | [name] => d.add name node
  | name :: rest =>
    match d.entry? name with
    | some (.directory inner) => d.add name (.directory (inner.set node rest))
    | _ => d

def erase (d : Directory) : Place → Directory
  | [] => d
  | [name] => d.drop name
  | name :: rest =>
    match d.entry? name with
    | some (.directory inner) => d.add name (.directory (inner.erase rest))
    | _ => d

end Directory

namespace Disk

def empty : Disk := ⟨.empty⟩

def get? (d : Disk) (place : Place) : Option Node := d.root.get? place

def set (d : Disk) (place : Place) (node : Node) : Disk := ⟨d.root.set node place⟩

def erase (d : Disk) (place : Place) : Disk := ⟨d.root.erase place⟩

structure Target where
  /-- The names on the way there from the root, the last one first. -/
  trail : List Text
  node? : Option Node
  /-- Whether the path ends in a slash, and so has to lead to a directory. -/
  slash : Bool
  /-- Whether the last part of the path is a name, and not a dot or two. -/
  named : Bool
  deriving DecidableEq, Repr

def Target.place (t : Target) : Place := t.trail.reverse

def maxName : Nat := 255

/-- The greatest length of a path, and one. -/
def maxPath : Nat := 4096

def maxMissing : Nat := 1000

def isDots (part : Text) : Bool := part == ascii "." || part == ascii ".."

def step (d : Disk) (t : Target) (part : Text) : Except Errno Target :=
  match t.node? with
  | none => .error .noEntry
  | some (.file _) => .error .notDirectory
  | some (.directory entries) =>
    if part == ascii "." then .ok ⟨t.trail, t.node?, true, false⟩
    else if part == ascii ".." then .ok ⟨t.trail.tail, d.get? t.trail.tail.reverse, true, false⟩
    else if maxName < part.length then .error .nameTooLong
    else .ok ⟨part :: t.trail, entries.entry? part, false, true⟩

def walk (d : Disk) (t : Target) : List Text → Except Errno Target
  | [] => .ok t
  | part :: rest =>
    match d.step t part with
    | .error errno => .error errno
    | .ok t => d.walk t rest

/-- The parts of a path that are followed one after another; several slashes count as one. -/
def parts (path : Path) : List Text := (path.splitOn (byte '/')).filter (!·.isEmpty)

/--
Where a path leads to. All but the last part must be there; a path ends at its first zero byte.
-/
def resolve (d : Disk) (path : Path) : Except Errno Target :=
  match path.beforeNul with
  | [] => .error .noEntry
  | path =>
    if maxPath ≤ path.length then .error .nameTooLong
    else
      match d.walk ⟨[], some (.directory d.root), false, false⟩ (parts path) with
      | .error errno => .error errno
      | .ok t => .ok { t with slash := t.slash || path.getLast? == some (byte '/') }

def find (d : Disk) (path : Path) : Except Errno (Target × Node) := do
  let t ← d.resolve path
  match t.node? with
  | none => throw .noEntry
  | some (.file content) => if t.slash then throw .notDirectory else return (t, .file content)
  | some (.directory entries) => return (t, .directory entries)

/-- What a path leads to, where it is no error if there is nothing. -/
def find? (d : Disk) (path : Path) : Except Errno (Option Node) :=
  match d.find path with
  | .ok (_, node) => .ok (some node)
  | .error .noEntry | .error .notDirectory => .ok none
  | .error errno => .error errno

/-- The content of a file, where it is no error if there is none. A directory reads as empty. -/
def read (d : Disk) (path : Path) : Except World.ReadFault (Option Text) :=
  match d.find? path with
  | .error errno => .error (.unknown errno)
  | .ok none => .ok none
  | .ok (some (.directory _)) => .ok (some [])
  | .ok (some (.file content)) => .ok (some content)

def isDirectory (d : Disk) (path : Path) : Bool :=
  match d.find path with
  | .ok (_, .directory _) => true
  | _ => false

def list (d : Disk) (path : Path) : Except Errno World.Listing := do
  match ← d.find path with
  | (_, .file _) => throw .notDirectory
  | (_, .directory entries) => return entries.listing

def size (d : Disk) (path : Path) : Except Errno Nat := do
  match ← d.find path with
  | (_, .directory _) => throw .isDirectory
  | (_, .file content) => return content.length

def create (d : Disk) (path : Path) : Except Errno Disk := do
  let t ← d.resolve path
  if t.named && t.slash then throw .isDirectory
  else if t.node?.isSome then throw .alreadyExists
  else return d.set t.place (.file [])

def writable (d : Disk) (path : Path) : Except Errno Target := do
  let t ← d.resolve path
  match t.node? with
  | some (.directory _) => throw .isDirectory
  | _ => if t.slash then throw .isDirectory else return t

def contentOf : Option Node → Text
  | some (.file content) => content
  | _ => []

def put (d : Disk) (path : Path) (content : Text) : Except Errno Disk := do
  return d.set (← d.writable path).place (.file content)

def touch (d : Disk) (path : Path) : Except Errno Disk := do
  let t ← d.writable path
  return if t.node?.isSome then d else d.set t.place (.file [])

def append (d : Disk) (path : Path) (data : Text) : Except Errno Disk := do
  let t ← d.writable path
  return d.set t.place (.file (contentOf t.node? ++ data))

def link (d : Disk) (source target : Path) : Except Errno Disk := do
  let (_, node) ← d.find source
  let new ← d.resolve target
  if new.node?.isSome then throw .alreadyExists
  else if new.slash then throw .noEntry
  else
    match node with
    | .directory _ => throw .notPermitted
    | .file content => return d.set new.place (.file content)

def rename (d : Disk) (source target : Path) : Except Errno Disk := do
  let old ← d.resolve source
  let new ← d.resolve target
  if !old.named || !new.named then throw .busy
  match old.node? with
  | none => throw .noEntry
  | some (.directory _) => throw .isDirectory
  | some (.file content) =>
    if old.slash || new.slash then throw .notDirectory
    match new.node? with
    | some (.directory _) => throw .isDirectory
    | _ => return (d.erase old.place).set new.place (.file content)

def remove (d : Disk) (path : Path) : Except Errno Disk :=
  match d.find path with
  | .error .noEntry => .ok d
  | .error errno => .error errno
  | .ok (t, .file _) => .ok (d.erase t.place)
  | .ok (t, .directory entries) =>
    if !t.named then .error .busy
    else if entries != .empty then .error .notEmpty
    else .ok (d.erase t.place)

def makeDirectory (d : Disk) (path : Path) : Except Errno (Bool × Disk) := do
  let t ← d.resolve path
  match t.node? with
  | some (.directory _) => return (false, d)
  | some (.file _) => throw .alreadyExists
  | none => return (true, d.set t.place (.directory .empty))

/--
The directories that are missing for a path that leads nowhere, the outermost first and before those
found already. The number bounds how far up the search goes.
-/
def missing (d : Disk) : Nat → List Path → Path → Except Errno (List Path)
  | 0, found, _ => .ok found
  | fuel + 1, found, path =>
    let found := if isDots path.fileName then found else path :: found
    if maxMissing < found.length then .error .nameTooLong
    else if path.parent.isEmpty then .ok found
    else
      match d.find? path.parent with
      | .ok none => d.missing fuel found path.parent
      | .ok (some (.file _)) => .error .notDirectory
      | _ => .ok found

/--
Creates directories one after another; whether the last one is new. Those that were created before
an error stay.
-/
def makeEach (d : Disk) (isNew : Bool) : List Path → Except Errno Bool × Disk
  | [] => (.ok isNew, d)
  | path :: rest =>
    match d.makeDirectory path with
    | .error errno => (.error errno, d)
    | .ok (isNew, d) => d.makeEach isNew rest

def makeDirectories (d : Disk) (path : Path) : Except Errno Bool × Disk :=
  if path.isEmpty then (.error .invalidArgument, d)
  else
    match d.find? path with
    | .error errno => (.error errno, d)
    | .ok (some (.directory _)) => (.ok false, d)
    | .ok (some (.file _)) => (.error .notDirectory, d)
    | .ok none =>
      match d.missing path.length [] (if path.fileName.isEmpty then path.parent else path) with
      | .error errno => (.error errno, d)
      | .ok found => d.makeEach false found

/--
Removes whatever a path leads to, and everything below it. A directory that the path does not name
is emptied and stays.
-/
def removeAll (d : Disk) (path : Path) : Disk :=
  match d.find path with
  | .error _ => d
  | .ok (t, _) =>
    if t.named then d.erase t.place
    else if t.trail.isEmpty then empty
    else d.set t.place (.directory .empty)

def listing (d : Disk) : List (Path × Option Nat) :=
  (d.root.paths [] []).mergeSort fun a b => Text.le a.1 b.1

end Disk

end SchemaMigration
