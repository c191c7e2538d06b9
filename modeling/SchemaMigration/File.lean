import SchemaMigration.Failure

/-!
This module contains the reading of whole files, and their replacement such that a reader sees
either the old content or the new one.
-/

namespace SchemaMigration.File

open World (call)

def readFailure (path : Path) : World.ReadFault → Failure
  | .unknown errno => .refused .stat path errno
  | .notOpened => .notOpened path
  | .notRead => .notRead path

def readIfExists (path : Path) : Program World Failure (Option Text) := do
  match ← call (.read path) with
  | .ok content? => return content?
  | .error fault => throw (readFailure path fault)

def read (path : Path) : Program World Failure Text := do
  match ← readIfExists path with
  | some content => return content
  | none => throw (.fileNotFound path)

def abandon (temporary : Path) (action : FileAction) (errno : Errno) :
    Program World Failure Unit := do
  let _ ← call (.close temporary)
  let _ ← call (.remove temporary)
  throw (.refused action temporary errno)

/--
Writes all of a text to a new file, however much of it each request takes and however often one is
interrupted. The number bounds the count of requests that take something; a request that takes
nothing counts as a failure in the end.
-/
def writeAll (temporary : Path) : Nat → Text → Program World Failure Unit
  | _, [] => return ()
  | 0, _ :: _ => abandon temporary .write .inputOutput
  | fuel + 1, data => do
    match ← World.uninterrupted (call (.write temporary data)) with
    | .error errno => abandon temporary .write errno
    | .ok count => writeAll temporary fuel (data.drop count)

/-- Forces a directory to disk, so that a rename in it lasts. -/
def syncDirectory (directory : Path) : Program World Failure Unit := do
  match ← call (.openDirectory directory) with
  | .error errno => throw (.refused .openDirectory directory errno)
  | .ok () =>
    let synced ← call (.syncDirectory directory)
    let _ ← call (.closeDirectory directory)
    match synced with
    | .error errno => throw (.refused .syncDirectory directory errno)
    | .ok () => return ()

def temporaryPath (path : Path) (name : Text) : Path :=
  path ++ byte '.' :: name ++ ascii ".tmp"

/--
Replaces the content of a file. The new content is written to a temporary file beside it and forced
to disk before the rename makes it visible.
-/
def writeAtomic (path : Path) (content : Text) : Program World Failure Unit := do
  let temporary := temporaryPath path (← call .freshName)
  match ← call (.create temporary) with
  | .error errno => throw (.refused .openForWriting temporary errno)
  | .ok () =>
    writeAll temporary content.length content
    match ← call (.sync temporary) with
    | .error errno => abandon temporary .sync errno
    | .ok () =>
      match ← call (.close temporary) with
      | .error errno =>
        let _ ← call (.remove temporary)
        throw (.refused .close temporary errno)
      | .ok () =>
        match ← call (.rename temporary path) with
        | .error errno =>
          let _ ← call (.remove temporary)
          throw (.refused .replace path errno)
        | .ok () => syncDirectory path.parent

end SchemaMigration.File
