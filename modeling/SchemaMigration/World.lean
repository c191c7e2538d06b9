import SchemaMigration.Calendar
import SchemaMigration.Log
import SchemaMigration.Path
import SchemaMigration.Program

/-!
This module contains the interface to the operating system, the database and the log, through which
everything that is not a computation is done.
-/

namespace SchemaMigration

inductive Errno where
  | notPermitted | noEntry | interrupted | inputOutput | accessDenied | busy | alreadyExists
  | crossDevice | notDirectory | isDirectory | invalidArgument | noSpace | readOnly | nameTooLong
  | noLocks | notEmpty | quotaExceeded
  deriving DecidableEq, Repr

def Errno.message : Errno → Text
  | notPermitted => ascii "Operation not permitted"
  | noEntry => ascii "No such file or directory"
  | interrupted => ascii "Interrupted system call"
  | inputOutput => ascii "Input/output error"
  | accessDenied => ascii "Permission denied"
  | busy => ascii "Device or resource busy"
  | alreadyExists => ascii "File exists"
  | crossDevice => ascii "Invalid cross-device link"
  | notDirectory => ascii "Not a directory"
  | isDirectory => ascii "Is a directory"
  | invalidArgument => ascii "Invalid argument"
  | noSpace => ascii "No space left on device"
  | readOnly => ascii "Read-only file system"
  | nameTooLong => ascii "File name too long"
  | noLocks => ascii "No locks available"
  | notEmpty => ascii "Directory not empty"
  | quotaExceeded => ascii "Disk quota exceeded"

namespace World

inductive ReadFault where
  /-- It cannot be found out whether there is a file. -/
  | unknown (errno : Errno)
  | notOpened
  | notRead
  deriving DecidableEq, Repr

structure Listing where
  entries : List (Text × Bool)
  nodup : (entries.map (·.1)).Nodup

inductive Request where
  /-- The content of a file; none if there is no such file. -/
  | read (path : Path)
  /-- Whether there is a file or directory. -/
  | isPresent (path : Path)
  | isDirectory (path : Path)
  | list (path : Path)
  /-- The size of a file in bytes. -/
  | size (path : Path)
  /-- Creates a directory and those above it; whether the directory is new. -/
  | makeDirectories (path : Path)
  /-- Creates an empty file, which must not exist. -/
  | create (path : Path)
  /-- Appends to a file that this program created: how many bytes were taken. -/
  | write (path : Path) (data : Text)
  | sync (path : Path)
  | close (path : Path)
  /-- Renames a file, which replaces a file of the new name. -/
  | rename (source target : Path)
  /-- Removes a file; it is no error if there is none. -/
  | remove (path : Path)
  /-- Opens a directory in order to force it to disk. -/
  | openDirectory (path : Path)
  | syncDirectory (path : Path)
  | closeDirectory (path : Path)
  /-- Opens a file as a stream and empties it, or creates it; whether that was possible. -/
  | openStream (path : Path)
  /-- Writes a text to a stream that was just opened; whether all of it was written. -/
  | writeStream (path : Path) (content : Text)
  /-- Gives a file a second name, which must not exist. -/
  | link (source target : Path)
  /-- Opens a file in order to lock it, and creates it if there is none. -/
  | openGuard (path : Path)
  /-- Waits for the lock on an open file. -/
  | lockGuard (path : Path)
  /-- Closes a file that was opened in order to lock it, which drops the lock. -/
  | closeGuard (path : Path)
  /-- The name of this host, if it can be found out. -/
  | hostName
  | processId
  /-- Whether a process may exist on this host. -/
  | isAlive (pid : Int)
  | now
  /-- Nanoseconds of a clock that runs evenly, for the length of a wait. -/
  | ticks
  | wait (nanos : Int)
  | sleep (millis : Int)
  /--
  How many more system calls of this program will be interrupted at most. That is known only
  afterwards; whoever starts a call over again takes it as a bound.
  -/
  | interruptions
  /-- A name that no other request gives. -/
  | freshName
  | connect
  | transaction (statements : List Text)
  | disconnect
  /-- Has the log keep what a filter admits from now on. -/
  | openLog (filter : Log.Filter)
  | log (entry : Log.Entry)
  deriving DecidableEq, Repr

/-- The types of the replies. What the database refuses, it explains with a text. -/
@[reducible] def Reply : Request → Type
  | .read _ => Except ReadFault (Option Text)
  | .isPresent _ => Except Errno Bool
  | .isDirectory _ => Bool
  | .list _ => Except Errno Listing
  | .size _ => Except Errno Nat
  | .makeDirectories _ => Except Errno Bool
  | .write _ _ => Except Errno Nat
  | .create _ | .sync _ | .close _ | .rename _ _ | .remove _ => Except Errno Unit
  | .openDirectory _ | .syncDirectory _ | .closeDirectory _ => Except Errno Unit
  | .openStream _ | .writeStream _ _ => Bool
  | .link _ _ | .openGuard _ | .lockGuard _ | .closeGuard _ => Except Errno Unit
  | .hostName => Option Text
  | .processId => Int
  | .isAlive _ => Bool
  | .now => Moment
  | .ticks => Int
  | .wait _ | .sleep _ => Unit
  | .interruptions => Nat
  | .freshName => Text
  | .connect | .transaction _ | .disconnect => Except Text Unit
  | .openLog _ | .log _ => Unit

end World

@[reducible] def World : Interface := ⟨World.Request, World.Reply⟩

def World.call {ε : Type} (r : World.Request) : Program World ε (World.Reply r) :=
  Program.request (σ := World) r

def World.pause {ε : Type} (millis : Int) : Program World ε Unit :=
  if 0 < millis then World.call (.sleep millis) else return ()

/-- Makes an attempt again whenever it is interrupted, but at most a number of times. -/
def World.restart {ε α : Type} (attempt : Program World ε (Except Errno α)) :
    Nat → Program World ε (Except Errno α)
  | 0 => attempt
  | bound + 1 => do
    match ← attempt with
    | .error .interrupted => restart attempt bound
    | reply => return reply

def World.uninterrupted {ε α : Type} (attempt : Program World ε (Except Errno α)) :
    Program World ε (Except Errno α) := do
  World.restart attempt (← World.call .interruptions)

class HasLog (σ : Interface) where
  log {ε : Type} (entry : Log.Entry) : Program σ ε Unit

instance : HasLog World where
  log entry := World.call (.log entry)

namespace Log

variable {σ : Interface} [HasLog σ] {ε : Type}

def debug (text : String) (fields : List Field) : Program σ ε Unit :=
  HasLog.log (.message .debug (ascii text) fields)

def info (text : String) (fields : List Field) : Program σ ε Unit :=
  HasLog.log (.message .info (ascii text) fields)

def warn (text : String) (fields : List Field) : Program σ ε Unit :=
  HasLog.log (.message .warning (ascii text) fields)

def error (text : String) (fields : List Field) : Program σ ε Unit :=
  HasLog.log (.message .error (ascii text) fields)

def audit (action : String) (fields : List Field) : Program σ ε Unit :=
  HasLog.log (.audit (ascii action) fields)

end Log

end SchemaMigration
