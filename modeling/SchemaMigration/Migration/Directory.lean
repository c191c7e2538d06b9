import SchemaMigration.File
import SchemaMigration.Migration.File
import SchemaMigration.Migration.Name

/-!
This module contains the loading of migration files from their directory, in the order of their
names, with limits on their sizes.
-/

namespace SchemaMigration.Migration

structure Limits where
  enabled : Bool
  maxFile : Nat
  maxTotal : Nat
  deriving DecidableEq, Repr

def isMigrationFile (name : Text) (isRegular : Bool) : Bool :=
  Path.extension name == fileExtension && isRegular

def fileNames (found : World.Listing) : List Text :=
  Text.sort ((found.entries.filter fun entry => isMigrationFile entry.1 entry.2).map (·.1))

def listFiles (directory : Path) : Program World Failure (List Text) := do
  if ← World.call (.isDirectory directory) then
    match ← World.call (.list directory) with
    | .error errno => throw (.refused .list directory errno)
    | .ok found => return fileNames found
  else
    throw (.noMigrationsDirectory directory)

def insertLarger (entry : Path × Nat) : List (Path × Nat) → List (Path × Nat)
  | [] => [entry]
  | other :: rest =>
    if other.2 ≤ entry.2 then entry :: other :: rest else other :: insertLarger entry rest

/-- The five largest files, the largest first; files of one size keep their order. -/
def largest (sizes : List (Path × Nat)) : List (Path × Nat) :=
  (sizes.foldr insertLarger []).take 5

def readSizes (limit : Nat) : List Path → Program World Failure (List (Path × Nat))
  | [] => return []
  | path :: rest => do
    match ← World.call (.size path) with
    | .error errno => throw (.sizeUnknown path errno)
    | .ok size =>
      if limit < size then
        throw (.fileTooLarge path size limit)
      let sizes ← readSizes limit rest
      return (path, size) :: sizes

def checkSizes (limits : Limits) (paths : List Path) : Program World Failure Unit := do
  let sizes ← readSizes limits.maxFile paths
  let total := sizes.foldl (fun total size => total + size.2) 0
  if limits.maxTotal < total then
    throw (.totalTooLarge total limits.maxTotal paths.length (largest sizes))

def loadFiles (directory : Path) (limits : Limits) :
    Program World Failure (List MigrationFile) := do
  let names ← listFiles directory
  if limits.enabled then
    checkSizes limits (names.map directory.join)
  names.mapM fun name => return ⟨name, ← File.read (directory.join name)⟩

end SchemaMigration.Migration
