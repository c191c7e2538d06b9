import SchemaMigration.Run.Access
import SchemaMigration.Schema.Parser

/-!
This module contains the runs: applying the pending migrations, rolling back the newest batch, and
the report on both. Migrations that were committed before a failure are recorded all the same.
-/

namespace SchemaMigration.Run

structure Applied where
  applied : List Text
  skipped : List Text
  batch : Int
  deriving DecidableEq, Repr

structure RolledBack where
  rolledBack : List Text
  batch : Int
  deriving DecidableEq, Repr

structure Status where
  applied : List Ledger.Entry
  pending : List Text
  currentBatch : Int
  deriving DecidableEq, Repr

def demand {α : Type} (reply : Program Access Failure (Except Failure α)) :
    Program Access Failure α := do
  Program.ofExcept (← reply)

def require (files : List MigrationFile) (direction : Direction) (name : Text) :
    Except Failure MigrationFile :=
  match MigrationFile.find? files name with
  | some file => .ok file
  | none => .error (.fileMissing name direction)

def statements (dialect : Sql.Dialect) (direction : Direction) (file : MigrationFile) :
    Except Failure (List Text) := do
  let schema ← (Schema.parse file.content).mapError .parse
  match direction with
  | .apply => (Sql.up dialect schema).mapError .compile
  | .rollBack => (Sql.down dialect schema).mapError .compile

def execute (dialect : Sql.Dialect) (direction : Direction) (file : MigrationFile) :
    Program Access Failure (List Text) := do
  let sql ← Program.ofExcept (statements dialect direction file)
  demand (ask (.transaction direction file.name sql))
  return sql

def applyFile (dialect : Sql.Dialect) (file : MigrationFile) : Program Access Failure Unit := do
  Log.info "Applying migration" [.text "file" file.name]
  match ← (execute dialect .apply file).attempt with
  | .ok sql =>
    Log.audit "migration.apply"
      [.text "file" file.name, .text "dialect" dialect.name, .int "statements" sql.length]
  | .error e =>
    Log.error "Migration failed" [.text "file" file.name, .text "error" e.report]
    throw e

def rollBackFile (dialect : Sql.Dialect) (batch : Int) (file : MigrationFile) :
    Program Access Failure Unit := do
  Log.info "Rolling back migration" [.text "file" file.name]
  match ← (execute dialect .rollBack file).attempt with
  | .ok _ =>
    Log.audit "migration.rollback"
      [.text "file" file.name, .text "dialect" dialect.name, .int "batch" batch]
  | .error e =>
    Log.error "Rollback failed" [.text "file" file.name, .text "error" e.report]
    throw e

/-- How far a run came: the files that were committed, and what stopped it, if anything did. -/
structure Progress where
  committed : List MigrationFile
  stopped : Option Failure

def forEachFile (treat : MigrationFile → Program Access Failure Unit) :
    List MigrationFile → Program Access Failure Progress
  | [] => return ⟨[], none⟩
  | file :: rest => do
    match ← (treat file).attempt with
    | .error e => return ⟨[], some e⟩
    | .ok () =>
      let progress ← forEachFile treat rest
      return { progress with committed := file :: progress.committed }

/-- Gives up the connection; that this fails is only worth a warning. -/
def disconnect : Program Access Failure Unit := do
  match ← ask .disconnect with
  | .ok () => return ()
  | .error e => Log.warn "Disconnect failed" [.text "error" e.report]

/-- Connects, treats files one after another, and disconnects, however far it came. -/
def whileConnected (treat : MigrationFile → Program Access Failure Unit)
    (files : List MigrationFile) : Program Access Failure Progress := do
  let progress ←
    match ← ask .connect with
    | .error e => pure ⟨[], some e⟩
    | .ok () => forEachFile treat files
  disconnect
  return progress

def inconsistent {α : Type} (direction : Direction) (ledger : Path) (files : List Text)
    (cause : Failure) : Program Access Failure α := do
  Log.error "Ledger update failed after SQL was executed"
    [.text "action" direction.participle, .int "migrations" files.length,
      .text "error" cause.report]
  throw (.inconsistent direction ledger files cause)

/-- The batch in which committed files were recorded; zero without any. -/
def recordCommitted (ledger : Path) (committed : List MigrationFile) :
    Program Access Failure Int := do
  if committed.isEmpty then
    return 0
  match ← ask (.record committed) with
  | .ok state => return state.currentBatch
  | .error e => inconsistent .apply ledger (committed.map (·.name)) e

/-- Applies the pending migrations in the order of their names, and records them as one batch. -/
def up (dialect : Sql.Dialect) (ledger : Path) : Program Access Failure Applied := do
  let state ← demand (ask .load)
  let files ← demand (ask .loadFiles)
  Program.ofExcept (state.validate files)
  let names := files.map (·.name)
  let skipped := names.filter state.isApplied
  let pending := state.pending names
  if pending.isEmpty then
    Log.info "No pending migrations" [.int "current_batch" state.currentBatch]
    return ⟨[], skipped, 0⟩
  let pendingFiles ← Program.ofExcept (pending.mapM (require files .apply))
  demand (ask .probe)
  let progress ← whileConnected (applyFile dialect) pendingFiles
  let batch ← recordCommitted ledger progress.committed
  let count := progress.committed.length
  match progress.stopped with
  | some e =>
    if 0 < count then
      Log.warn "Migrations committed before the failure were recorded"
        [.int "batch" batch, .int "migrations" count]
    throw e
  | none =>
    Log.info "Migrations applied" [.int "batch" batch, .int "migrations" count]
    return ⟨progress.committed.map (·.name), skipped, batch⟩

def requireUnmodified (files : List MigrationFile) (entry : Ledger.Entry) :
    Except Failure MigrationFile := do
  let file ← require files .rollBack entry.file
  if file.hash == entry.hash then
    return file
  else
    throw (.recordedFileModified entry.file entry.hash file.hash .rollBack)

/-- The newest batch behind the removal of files that were rolled back from `state`. -/
def removeCommitted (ledger : Path) (state : Ledger.State) (committed : List Text) :
    Program Access Failure Int := do
  if committed.isEmpty then
    return state.currentBatch
  match ← ask (.remove committed) with
  | .ok state => return state.currentBatch
  | .error e => inconsistent .rollBack ledger committed e

/-- Rolls back the newest batch, the newest migration first, and removes it from the ledger. -/
def down (dialect : Sql.Dialect) (ledger : Path) : Program Access Failure RolledBack := do
  let state ← demand (ask .load)
  let files ← demand (ask .loadFiles)
  let entries := state.lastBatch
  if entries.isEmpty then
    Log.info "Nothing to roll back" []
    return ⟨[], 0⟩
  let batch := state.currentBatch
  let batchFiles ← Program.ofExcept (entries.mapM (requireUnmodified files))
  demand (ask .probe)
  let progress ← whileConnected (rollBackFile dialect batch) batchFiles
  let committed := progress.committed.map (·.name)
  let currentBatch ← removeCommitted ledger state committed
  match progress.stopped with
  | some e => throw e
  | none =>
    Log.info "Batch rolled back"
      [.int "batch" batch, .int "migrations" committed.length, .int "current_batch" currentBatch]
    return ⟨committed, batch⟩

def status : Program Access Failure Status := do
  let state ← demand (ask .load)
  let names ← demand (ask .listFiles)
  return ⟨state.entries, state.pending names, state.currentBatch⟩

end SchemaMigration.Run
