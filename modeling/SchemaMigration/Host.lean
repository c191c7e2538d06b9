import SchemaMigration.Name
import SchemaMigration.World
import Std.Time.DateTime.Timestamp

/-!
This module contains the surroundings of a real run: every request is passed on to the operating
system. No database engine is linked, so a connection is always refused.
-/

namespace SchemaMigration

/-- What has to be remembered between requests: what the log keeps, and the guard that is held. -/
structure Host where
  filter : IO.Ref Log.Filter
  guard : IO.Ref (Option IO.FS.Handle)

namespace Host

/-- A text as a string; bytes that are not an encoding are kept as code points. -/
def stringOf (t : Text) : String :=
  (String.fromUTF8? ⟨t.toArray⟩).getD (String.ofList (t.map fun b => Char.ofNat b.toNat))

def ofString (s : String) : Text := s.toUTF8.toList

def errnoOfNat (code : Nat) : Errno :=
  if code = 1 then .notPermitted
  else if code = 2 then .noEntry
  else if code = 4 then .interrupted
  else if code = 13 then .accessDenied
  else if code = 16 then .busy
  else if code = 17 then .alreadyExists
  else if code = 18 then .crossDevice
  else if code = 20 then .notDirectory
  else if code = 21 then .isDirectory
  else if code = 22 then .invalidArgument
  else if code = 28 then .noSpace
  else if code = 30 then .readOnly
  else if code = 36 then .nameTooLong
  else if code = 37 then .noLocks
  else if code = 39 then .notEmpty
  else if code = 122 then .quotaExceeded
  else .inputOutput

def errnoOf (code : UInt32) : Errno :=
  errnoOfNat (if code < 0x80000000 then code else 0 - code).toNat

def errnoOfError : IO.Error → Errno
  | .alreadyExists _ code _ => errnoOf code
  | .otherError code _ => errnoOf code
  | .resourceBusy code _ => errnoOf code
  | .resourceVanished code _ => errnoOf code
  | .unsupportedOperation code _ => errnoOf code
  | .hardwareFault code _ => errnoOf code
  | .unsatisfiedConstraints code _ => errnoOf code
  | .illegalOperation code _ => errnoOf code
  | .protocolError code _ => errnoOf code
  | .timeExpired code _ => errnoOf code
  | .interrupted _ code _ => errnoOf code
  | .noFileOrDirectory _ code _ => errnoOf code
  | .invalidArgument _ code _ => errnoOf code
  | .permissionDenied _ code _ => errnoOf code
  | .resourceExhausted _ code _ => errnoOf code
  | .inappropriateType _ code _ => errnoOf code
  | .noSuchThing _ code _ => errnoOf code
  | .unexpectedEof => .inputOutput
  | .userError _ => .inputOutput

def reply {α : Type} (action : IO α) : IO (Except Errno α) := do
  try
    return .ok (← action)
  catch e =>
    return .error (errnoOfError e)

def ifPresent {α : Type} (absent : α) (action : IO α) : IO (Except Errno α) := do
  match ← reply action with
  | .error .noEntry | .error .notDirectory => return .ok absent
  | outcome => return outcome

def kindOf (path : Path) : IO IO.FS.FileType := do
  let entry : IO.FS.DirEntry := ⟨⟨stringOf path⟩, ""⟩
  return (← entry.root.metadata).type

/-- The content of a file; a directory reads as empty. -/
def readFile (path : Path) : IO (Option Text) := do
  match ← kindOf path with
  | .dir => return some []
  | _ => return some (← IO.FS.readBinFile ⟨stringOf path⟩).toList

def listDirectory (path : Path) : IO World.Listing := do
  let directory : IO.FS.DirEntry := ⟨⟨stringOf path⟩, ""⟩
  let entries ← (← directory.root.readDir).toList.mapM fun entry => do
    return (ofString entry.fileName, (← entry.path.metadata).type == .file)
  if h : (entries.map (·.1)).Nodup then
    return ⟨entries, h⟩
  else
    throw (IO.userError "a name is there twice")

def readIfPresent (path : Path) : IO (Except World.ReadFault (Option Text)) := do
  match ← ifPresent false (do let _ ← kindOf path; return true) with
  | .error errno => return .error (.unknown errno)
  | .ok false => return .ok none
  | .ok true =>
    match ← ifPresent none (readFile path) with
    | .error .inputOutput => return .error .notRead
    | .error _ => return .error .notOpened
    | .ok content? => return .ok content?

def removeAny (path : Path) : IO Unit := do
  match ← kindOf path with
  | .dir => IO.FS.removeDir ⟨stringOf path⟩
  | _ => IO.FS.removeFile ⟨stringOf path⟩

def makeWay (above : Path) : List Text → IO Unit
  | [] => return ()
  | part :: rest => do
    let path := if above.isEmpty then part else above ++ byte '/' :: part
    match ← reply (kindOf path) with
    | .ok .dir => makeWay path rest
    | _ =>
      if !part.isEmpty then
        IO.FS.createDir ⟨stringOf path⟩
      makeWay path rest

def makeDirectories (path : Path) : IO (Except Errno Bool) := do
  if path.isEmpty then
    return .error .invalidArgument
  match ← reply (kindOf path) with
  | .ok .dir => return .ok false
  | _ =>
    match ← reply (makeWay [] (path.splitOn (byte '/'))) with
    | .ok () => return .ok true
    | .error .alreadyExists => return .error .notDirectory
    | .error errno => return .error errno

def systemFile (name : String) : IO Text := do
  match ← reply (IO.FS.readBinFile ⟨name⟩) with
  | .ok content => return content.toList
  | .error _ => return []

def processId : IO Int := do
  let digits := (← systemFile "/proc/self/stat").takeWhile Byte.isDigit
  return Text.digitsValue digits

def hostName : IO (Option Text) := do
  let name := Text.trim (← systemFile "/proc/sys/kernel/hostname")
  return if name.isEmpty then none else some name

def now : IO Moment := do
  return .ofNanos (← Std.Time.Timestamp.now).toNanosecondsSinceUnixEpoch.val

def writeRecord (r : Log.Record) : IO Unit := do
  let time := (← now).iso8601.dropLast ++ ascii "+00:00"
  (← IO.getStderr).putStrLn (stringOf (time ++ ascii " [" ++ r.level.name ++ ascii "] " ++ r.text))

def sleep (millis : Int) : IO Unit := IO.sleep millis.toNat.toUInt32

/-- More system calls than can be interrupted. -/
def maxInterruptions : Nat := 1 <<< 64

def noEngine : Text := ascii "no database engine is linked into this program"

def serve (h : Host) : (r : World.Request) → IO (World.Reply r)
  | .read path => readIfPresent path
  | .isPresent path => ifPresent false (do let _ ← kindOf path; return true)
  | .isDirectory path => do return (← reply (kindOf path)).toOption == some .dir
  | .list path => reply (listDirectory path)
  | .size path => reply do
    let entry : IO.FS.DirEntry := ⟨⟨stringOf path⟩, ""⟩
    return (← entry.root.metadata).byteSize.toNat
  | .makeDirectories path => makeDirectories path
  | .create path => reply do let _ ← IO.FS.Handle.mk ⟨stringOf path⟩ .writeNew
  | .write path data => reply do
    let file ← IO.FS.Handle.mk ⟨stringOf path⟩ .append
    file.write ⟨data.toArray⟩
    return data.length
  | .sync path => reply do (← IO.FS.Handle.mk ⟨stringOf path⟩ .append).flush
  | .close _ => return .ok ()
  | .rename source target => reply (IO.FS.rename ⟨stringOf source⟩ ⟨stringOf target⟩)
  | .remove path => do
    match ← reply (removeAny path) with
    | .error .noEntry => return .ok ()
    | outcome => return outcome
  | .openDirectory path => do
    match ← reply (kindOf (if path.isEmpty then ascii "." else path)) with
    | .ok .dir => return .ok ()
    | .ok _ => return .error .notDirectory
    | .error errno => return .error errno
  | .syncDirectory _ => return .ok ()
  | .closeDirectory _ => return .ok ()
  | .openStream path => do
    return (← reply (IO.FS.writeBinFile ⟨stringOf path⟩ ⟨#[]⟩)).toBool
  | .writeStream path content => do
    return (← reply (IO.FS.writeBinFile ⟨stringOf path⟩ ⟨content.toArray⟩)).toBool
  | .link source target => reply (IO.FS.hardLink ⟨stringOf source⟩ ⟨stringOf target⟩)
  | .openGuard path => reply do h.guard.set (some (← IO.FS.Handle.mk ⟨stringOf path⟩ .append))
  | .lockGuard _ => reply do
    match ← h.guard.get with
    | some file => file.lock
    | none => return ()
  | .closeGuard _ => reply do
    match ← h.guard.get with
    | some file => file.unlock
    | none => return ()
    h.guard.set none
  | .hostName => hostName
  | .processId => processId
  | .isAlive pid => do
    return (← reply (kindOf (ascii "/proc/" ++ Text.ofInt pid))).toBool
  | .now => now
  | .ticks => do return (← IO.monoNanosNow)
  | .wait nanos => sleep ((nanos + 999999) / 1000000)
  | .sleep millis => sleep millis
  | .interruptions => return maxInterruptions
  | .freshName => do return Name.ofBytes (Name.mark (← IO.getRandomBytes 16).toList)
  | .connect => return .error noEngine
  | .transaction _ => return .error noEngine
  | .disconnect => return .ok ()
  | .openLog filter => h.filter.set filter
  | .log entry => do
    match (← h.filter.get).record? entry with
    | some record => writeRecord record
    | none => return ()

def run {ε α : Type} (h : Host) : Program World ε α → IO (Except ε α)
  | .done a => return .ok a
  | .fail e => return .error e
  | .ask r next => do h.run (next (← h.serve r))

end Host

end SchemaMigration
