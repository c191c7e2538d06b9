import SchemaMigration.Ledger.Ledger
import SchemaMigration.Migration.Directory
import SchemaMigration.Run.Connection

/-!
This module contains what a run of migrations asks for: whole operations on the ledger, the
migration files and the database.
-/

namespace SchemaMigration.Run

inductive Request where
  | load
  /-- Makes sure that the ledger can be written. -/
  | probe
  | record (files : List MigrationFile)
  | remove (files : List Text)
  | listFiles
  | loadFiles
  | connect
  | transaction (direction : Direction) (file : Text) (statements : List Text)
  | disconnect
  | log (entry : Log.Entry)
  deriving DecidableEq, Repr

@[reducible] def Reply : Request → Type
  | .load | .record _ | .remove _ => Except Failure Ledger.State
  | .probe => Except Failure Unit
  | .listFiles => Except Failure (List Text)
  | .loadFiles => Except Failure (List MigrationFile)
  | .connect | .transaction _ _ _ | .disconnect => Except Failure Unit
  | .log _ => Unit

@[reducible] def Access : Interface := ⟨Request, Reply⟩

def ask (r : Request) : Program Access Failure (Reply r) := Program.request (σ := Access) r

instance : HasLog Access where
  log entry := Program.request (σ := Access) (.log entry)

structure Options where
  migrations : Path
  ledger : Path
  limits : Migration.Limits
  lock : Lease.Options
  connection : Connection.Policy
  deriving DecidableEq, Repr

def onLedger {α : Type} (options : Options)
    (operation : Ledger → Program Ledger.Access Failure α) :
    Program World Failure (Except Failure α) :=
  (Ledger.onDisk options.ledger options.lock (operation (.new options.ledger))).attempt

/-- Serves the requests of a run. The second argument waits between two attempts to connect. -/
def serve (options : Options) (pause : Int → Program World Failure Unit) :
    (r : Request) → Program World Failure (Reply r)
  | .load => onLedger options fun l => return (← l.load).state
  | .probe => onLedger options fun l => l.probe
  | .record files => onLedger options fun l => return (← l.record files).state
  | .remove files => onLedger options fun l => return (← l.remove files).state
  | .listFiles => (Migration.listFiles options.migrations).attempt
  | .loadFiles => (Migration.loadFiles options.migrations options.limits).attempt
  | .connect => (Connection.connect options.connection pause).attempt
  | .transaction _ _ statements => do
    return (← World.call (.transaction statements)).mapError .database
  | .disconnect => do return (← World.call .disconnect).mapError .database
  | .log entry => HasLog.log entry

def perform {α : Type} (options : Options) (pause : Int → Program World Failure Unit)
    (run : Program Access Failure α) : Program World Failure α :=
  run.serveBy (fun r () => do return (← serve options pause r, ())) ()

end SchemaMigration.Run
