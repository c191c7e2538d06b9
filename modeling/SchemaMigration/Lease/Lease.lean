import SchemaMigration.File
import SchemaMigration.Lease.Record

/-!
This module contains leases: mutual exclusion between processes by means of a lock file. A lock file
is published by linking, which fails if there is one already. The lock of a process that died on
this host is taken over after a timeout, under a guard that only one process holds at a time.
-/

namespace SchemaMigration

open World (call)

/-- How long to wait for a lease, and how long between two attempts, in milliseconds. -/
structure Lease.Options where
  timeout : Int
  retryInterval : Int
  deriving DecidableEq, Repr

/-- A lease on a lock file. While it is held it has the token of the lock. -/
structure Lease where
  path : Path
  options : Lease.Options
  token? : Option Text
  deriving DecidableEq, Repr

namespace Lease

def new (path : Path) (options : Options) : Lease := ⟨path, options, none⟩

def isHeld (l : Lease) : Bool := l.token?.isSome

def lockPath (resource : Path) : Path := resource ++ ascii ".lock"

def guardPath (path : Path) : Path := path ++ ascii ".takeover"

def readRecord (path : Path) : Program World Failure (Option Record) := do
  return (← File.readIfExists path).map Record.decode

def maxHostName : Nat := 255

def cutHostName (name : Text) : Text := (Text.beforeNul name).take maxHostName

def localHostName : Program World Failure Text := do
  match ← call .hostName with
  | none => return ascii "unknown"
  | some name => return cutHostName name

def signed64 (n : Int) : Int := n.bmod (1 <<< 64)

/--
Whether the holder of a lock may be replaced: the lock is older than the timeout, and its process
ran on this host and is gone.
-/
def isStaleRecord (options : Options) (r : Record) : Program World Failure Bool := do
  if r.token.isEmpty then
    return false
  let now ← call .now
  if signed64 (now.millis - r.acquiredAtMillis) ≤ options.timeout then
    return false
  if r.hostName != (← localHostName) then
    return false
  if r.pid ≤ 0 then
    return false
  return !(← call (.isAlive r.pid))

def isStale (l : Lease) : Program World Failure Bool := do
  match ← readRecord l.path with
  | none => return false
  | some r => isStaleRecord l.options r

def removeToken (path : Path) (token : Text) : Program World Failure Unit := do
  match ← readRecord path with
  | none => return ()
  | some current =>
    if current.token != token then
      return ()
    match ← call (.remove path) with
    | .error errno =>
      Log.warn "Failed to remove stale lock" [.text "path" path, .text "error" errno.message]
    | .ok () =>
      Log.warn "Removed stale lock"
        [.text "path" path, .int "pid" current.pid, .text "hostname" current.hostName,
          .text "acquired_at" current.acquiredAt]
      Log.audit "lease.takeover"
        [.text "path" path, .int "stale_pid" current.pid, .text "stale_token" current.token]

/--
Removes a lock whose holder may be replaced. The lock is looked at again under the guard, since
another process may have taken it over meanwhile.
-/
def removeIfStale (l : Lease) : Program World Failure Unit := do
  match ← readRecord l.path with
  | none => return ()
  | some stale =>
    if ← isStaleRecord l.options stale then
      let guard := guardPath l.path
      match ← call (.openGuard guard) with
      | .error errno => throw (.refused .openGuard guard errno)
      | .ok () =>
        match ← World.uninterrupted (call (.lockGuard guard)) with
        | .error errno =>
          let _ ← call (.closeGuard guard)
          throw (.refused .lockGuard guard errno)
        | .ok () =>
          (removeToken l.path stale.token).andFinally do
            let _ ← call (.closeGuard guard)

def newRecord (token : Text) : Program World Failure Record := do
  let now ← call .now
  let pid ← call .processId
  let hostName ← localHostName
  return ⟨pid, hostName, token, now.iso8601, signed64 now.millis⟩

def serialize (record : Record) : Except Failure Text :=
  match Json.print? record.toJson with
  | none => .error .lockNotSerialized
  | some content => .ok content

def writeRecord (temporary : Path) (record : Record) : Program World Failure Unit := do
  if !(← call (.openStream temporary)) then
    throw (.lockFileNotCreated temporary)
  let content ← Program.ofExcept (serialize record)
  if !(← call (.writeStream temporary content)) then
    let _ ← call (.remove temporary)
    throw (.lockFileNotWritten temporary)

/-- Publishes a lock with a token, if there is no lock; whether the lock is ours afterwards. -/
def tryPublish (path : Path) (token : Text) : Program World Failure Bool := do
  let record ← newRecord token
  let temporary := File.temporaryPath path token
  writeRecord temporary record
  let linked ← call (.link temporary path)
  let _ ← call (.remove temporary)
  match linked with
  | .error .alreadyExists => return false
  | .error errno => throw (.refused .publish path errno)
  | .ok () =>
    match ← readRecord path with
    | none => return false
    | some r => return r.token == token

def describeHolder : Option Record → Text
  | none => ascii "unknown holder"
  | some r =>
    if r.token.isEmpty then ascii "unknown holder"
    else
      ascii "pid " ++ Text.ofInt r.pid ++ ascii " on " ++ r.hostName ++ ascii " since " ++
        r.acquiredAt

def timeOut (path : Path) (timeout : Int) : Program World Failure Unit := do
  let holder := describeHolder (← readRecord path)
  Log.error "Lock acquisition timed out"
    [.text "path" path, .int "timeout_ms" timeout, .text "holder" holder]
  throw (.lockTimeout path timeout holder)

def nanos (millis : Int) : Int := signed64 (millis * 1000000)

def wait (nanos : Int) : Program World Failure Unit :=
  if 0 < nanos then call (.wait nanos) else return ()

/--
Attempts to take a lock until it is taken or the deadline has passed, the last time at the deadline
itself. The first number bounds the count of attempts, the second is the number of the next one.
-/
def acquireBy (l : Lease) (token : Text) (timeout deadline : Int) :
    Nat → Nat → Program World Failure Unit
  | 0, _ => timeOut l.path timeout
  | fuel + 1, attempt => do
    removeIfStale l
    if ← tryPublish l.path token then
      Log.debug "Lock acquired" [.text "path" l.path, .int "attempts" attempt]
    else
      let now ← call .ticks
      if deadline ≤ now then
        timeOut l.path timeout
      else
        wait (min (nanos l.options.retryInterval) (signed64 (deadline - now)))
        acquireBy l token timeout deadline fuel (attempt + 1)

/--
A bound on the number of attempts. One at the start and one behind each interval fit into a timeout;
more are made if the clock is set back meanwhile, but no more than can be counted.
-/
def maxAttempts (l : Lease) (timeout : Int) : Nat :=
  (nanos timeout).toNat / max (nanos l.options.retryInterval).toNat 1 + 1 <<< 31

/-- Takes a lease, waiting for it up to a timeout. A lease that is held stays held. -/
def acquire (l : Lease) (timeout : Int) : Program World Failure Lease := do
  if l.isHeld then
    return l
  let deadline := signed64 ((← call .ticks) + nanos timeout)
  let token ← call .freshName
  acquireBy l token timeout deadline (l.maxAttempts timeout) 1
  return { l with token? := some token }

def removeOwn (path : Path) (token : Text) : Program World Failure Unit := do
  match ← (readRecord path).attempt with
  | .error e =>
    Log.warn "Cannot read lock on release" [.text "path" path, .text "error" e.report]
  | .ok record? =>
    if record?.any (·.token == token) then
      match ← call (.remove path) with
      | .error errno =>
        Log.warn "Failed to remove lock" [.text "path" path, .text "error" errno.message]
      | .ok () => Log.debug "Lock released" [.text "path" path]
    else
      Log.warn "Lock no longer ours, leaving it in place"
        [.text "path" path, .bool "present" record?.isSome]

def release (l : Lease) : Program World Failure Lease := do
  match l.token? with
  | none => return l
  | some token =>
    removeOwn l.path token
    return { l with token? := none }

end Lease

end SchemaMigration
