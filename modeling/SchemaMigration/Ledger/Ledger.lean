import SchemaMigration.Lease.Lease
import SchemaMigration.Ledger.State
import SchemaMigration.Migration.File

/-!
This module contains the operations on a ledger file. Each runs under a lease, reads the file anew,
and takes over a new state only after that state has been written.
-/

namespace SchemaMigration

namespace Ledger

inductive Request where
  | acquire
  | release
  | read
  | replace (content : Text)
  /-- Takes a state over as that of the ledger. -/
  | keep (state : State)
  | now
  | log (entry : Log.Entry)
  deriving DecidableEq, Repr

@[reducible] def Reply : Request → Type
  | .acquire => Except Failure Unit
  | .release => Unit
  | .read => Except Failure (Option Text)
  | .replace _ => Except Failure Unit
  | .keep _ => Unit
  | .now => Moment
  | .log _ => Unit

@[reducible] def Access : Interface := ⟨Request, Reply⟩

def ask (r : Request) : Program Access Failure (Reply r) := Program.request (σ := Access) r

instance : HasLog Access where
  log entry := Program.request (σ := Access) (.log entry)

end Ledger

structure Ledger where
  path : Path
  state : Ledger.State
  deriving DecidableEq, Repr

namespace Ledger

def new (path : Path) : Ledger := ⟨path, .empty⟩

def underLease {α : Type} (operation : Program Access Failure α) : Program Access Failure α := do
  match ← ask .acquire with
  | .error e => throw e
  | .ok () => operation.andFinally (ask .release)

/-- The state of a content that was read from the ledger file; no file is an empty ledger. -/
def decodeFile (path : Path) : Option Text → Except Failure State
  | none => .ok .empty
  | some content => (State.decode content).mapError (.corrupted path)

def readState (path : Path) : Program Access Failure State := do
  match ← ask .read with
  | .error e => throw e
  | .ok content? => Program.ofExcept (decodeFile path content?)

def writeState (s : State) : Program Access Failure Unit := do
  let content ← Program.ofExcept s.serialize
  Program.ofExcept (← ask (.replace content))

def take (l : Ledger) (state : State) : Program Access Failure Ledger := do
  ask (.keep state)
  return { l with state }

def load (l : Ledger) : Program Access Failure Ledger :=
  underLease do
    let state ← readState l.path
    let l ← l.take state
    Log.debug "Ledger loaded"
      [.text "path" l.path, .int "entries" state.entries.length,
        .int "current_batch" state.currentBatch]
    return l

def signed32 (n : Int) : Int := n.bmod (1 <<< 32)

/-- The first name that is in `seen` or stands before among the names. -/
def firstRepeated? : List Text → List Text → Option Text
  | _, [] => none
  | seen, name :: rest =>
    if seen.contains name then some name else firstRepeated? (name :: seen) rest

def State.withBatch (s : State) (files : List MigrationFile) (appliedAt : Text) : State :=
  let batch := signed32 (s.currentBatch + 1)
  ⟨s.entries ++ files.map fun f => ⟨f.name, f.hash, appliedAt, batch⟩, batch⟩

def record (l : Ledger) (files : List MigrationFile) : Program Access Failure Ledger := do
  if files.isEmpty then
    throw .emptyBatch
  underLease do
    let old ← readState l.path
    let now ← ask .now
    match firstRepeated? old.files.reverse (files.map (·.name)) with
    | some file => throw (.alreadyRecorded file l.path)
    | none =>
      let state := old.withBatch files now.iso8601
      writeState state
      let l ← l.take state
      Log.info "Ledger batch recorded"
        [.int "batch" state.currentBatch, .int "migrations" files.length]
      files.forM fun f =>
        Log.audit "ledger.record" [.text "filename" f.name, .int "batch" state.currentBatch]
      return l

/-- Removes the newest batch: the names of the removed migrations in the order of the ledger. -/
def rollBack (l : Ledger) : Program Access Failure (List Text × Ledger) :=
  underLease do
    let old ← readState l.path
    if old.currentBatch = 0 then
      return ([], ← l.take old)
    let inBatch := fun e : Entry => e.batch == old.currentBatch
    let removed := (old.entries.filter inBatch).map (·.file)
    let state := old.without inBatch
    writeState state
    let l ← l.take state
    Log.info "Ledger batch removed"
      [.int "batch" old.currentBatch, .int "migrations" removed.length,
        .int "current_batch" state.currentBatch]
    removed.forM fun file =>
      Log.audit "ledger.remove" [.text "filename" file, .int "batch" old.currentBatch]
    return (removed, l)

def remove (l : Ledger) (files : List Text) : Program Access Failure Ledger := do
  if files.isEmpty then
    return l
  underLease do
    let old ← readState l.path
    let isTarget := fun e : Entry => files.contains e.file
    let removed := (old.entries.filter isTarget).map (·.file)
    let state := old.without isTarget
    writeState state
    let l ← l.take state
    Log.info "Ledger entries removed"
      [.int "migrations" removed.length, .int "current_batch" state.currentBatch]
    removed.forM fun file => Log.audit "ledger.remove" [.text "filename" file]
    return l

/-- Writes the ledger file anew with what it says already, and reads it back. -/
def refresh (path : Path) : Program Access Failure Unit := do
  let state ← readState path
  let expected ← Program.ofExcept state.serialize
  writeState state
  match ← ask .read with
  | .error e => throw e
  | .ok none => throw (.fileNotFound path)
  | .ok (some content) =>
    if content != expected then
      throw .readBackDiffers
    let _ ← Program.ofExcept (decodeFile path (some content))
    return ()

def probe (l : Ledger) : Program Access Failure Unit :=
  underLease do
    match ← (refresh l.path).attempt with
    | .error e => throw (.notWritable l.path e)
    | .ok () => Log.debug "Ledger write probe passed" [.text "path" l.path]

def State.validate (s : State) (files : List MigrationFile) : Except Failure Unit :=
  s.entries.forM fun e =>
    match MigrationFile.find? files e.file with
    | none => .error (.recordedFileMissing e.file)
    | some f =>
      if f.hash == e.hash then .ok ()
      else .error (.recordedFileModified e.file e.hash f.hash .apply)

def serve (path : Path) : (r : Request) → Lease → Program World Failure (Reply r × Lease)
  | .acquire, lease => do
    match ← (lease.acquire lease.options.timeout).attempt with
    | .ok lease => return (.ok (), lease)
    | .error e => return (.error e, lease)
  | .release, lease => return ((), ← lease.release)
  | .read, lease => return (← (File.readIfExists path).attempt, lease)
  | .replace content, lease => return (← (File.writeAtomic path content).attempt, lease)
  | .keep _, lease => return ((), lease)
  | .now, lease => return (← World.call .now, lease)
  | .log entry, lease => return (← HasLog.log entry, lease)

def onDisk {α : Type} (path : Path) (options : Lease.Options)
    (operation : Program Access Failure α) : Program World Failure α :=
  operation.serveBy (serve path) (.new (Lease.lockPath path) options)

/--
Runs an operation on a ledger that has a state, and gives beside the outcome the state behind it.
-/
def remember {α : Type} : Program Access Failure α → State →
    Program Access Failure (Except Failure α × State)
  | .done a, s => .done (.ok a, s)
  | .fail e, s => .done (.error e, s)
  | .ask (.keep s) next, _ => remember (next ()) s
  | .ask r next, s => .ask r fun reply => remember (next reply) s

def call {α : Type} (l : Ledger) (options : Lease.Options)
    (operation : Ledger → Program Access Failure α) :
    Program World Failure (Except Failure α × Ledger) := do
  let (outcome, state) ← onDisk l.path options (remember (operation l) l.state)
  return (outcome, { l with state })

end Ledger

end SchemaMigration
