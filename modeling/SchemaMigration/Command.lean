import SchemaMigration.Migration.Scaffold
import SchemaMigration.Run.Run
import SchemaMigration.Settings

/-!
This module contains the command line: what the arguments mean, what each command does, and what is
shown to the user.
-/

namespace SchemaMigration.Command

inductive UsageError where
  | missingValue (option : Text)
  | unknownOption (option : Text)
  | unknownCommand (command : Text)
  | nameRequired
  deriving DecidableEq, Repr

def UsageError.message : UsageError → Text
  | missingValue option => ascii "Missing value for " ++ option
  | unknownOption option => ascii "Unknown option: " ++ option
  | unknownCommand command => ascii "Unknown command: " ++ command
  | nameRequired => ascii "Migration name is required. Usage: sigil create <name>"

structure Arguments where
  command : Text
  operands : List Text
  config? : Option Text
  dialect? : Option Text
  deriving DecidableEq, Repr

def Arguments.withOperand (a : Arguments) (operand : Text) : Arguments :=
  if a.command.isEmpty then { a with command := operand }
  else { a with operands := a.operands ++ [operand] }

/-- Takes further arguments. An option may stand anywhere, and the last of its kind counts. -/
def Arguments.withAll (a : Arguments) : List Text → Except UsageError Arguments
  | [] => .ok a
  | arg :: rest =>
    if arg == ascii "--config" then
      match rest with
      | [] => .error (.missingValue arg)
      | value :: rest => withAll { a with config? := some value } rest
    else if arg == ascii "--database" || arg == ascii "-d" then
      match rest with
      | [] => .error (.missingValue arg)
      | value :: rest => withAll { a with dialect? := some value } rest
    else if arg == ascii "--help" || arg == ascii "-h" then
      withAll { a with command := ascii "help" } rest
    else if arg == ascii "--version" || arg == ascii "-v" then
      withAll { a with command := ascii "version" } rest
    else if arg.head? == some (byte '-') then
      .error (.unknownOption arg)
    else
      withAll (a.withOperand arg) rest

def Arguments.parse (args : List Text) : Except UsageError Arguments :=
  withAll ⟨[], [], none, none⟩ args

inductive Task where
  | init
  | create (name : Text)
  | up
  | down
  | status
  deriving DecidableEq, Repr

def Task.ofArguments (a : Arguments) : Except UsageError Task :=
  if a.command == ascii "init" then .ok .init
  else if a.command == ascii "create" then
    match a.operands with
    | [] => .error .nameRequired
    | name :: _ => .ok (.create name)
  else if a.command == ascii "up" then .ok .up
  else if a.command == ascii "down" then .ok .down
  else if a.command == ascii "status" then .ok .status
  else .error (.unknownCommand a.command)

structure Output where
  exit : Nat
  out : Text
  err : Text
  deriving DecidableEq, Repr

def usage : Text :=
  ascii ("Usage: sigil [--config <file>] <command> [args] [--database|-d <dialect>]\n" ++
    "\n" ++
    "Commands:\n" ++
    "  init              Create the migrations directory and sigil.yaml\n" ++
    "  create <name>     Create a new migration file\n" ++
    "  up                Apply pending migrations\n" ++
    "  down              Roll back the last batch\n" ++
    "  status            Show applied and pending migrations\n" ++
    "  help              Show this help\n" ++
    "  version           Show version\n" ++
    "\n" ++
    "Options:\n" ++
    "  --config <file>         Config file (default: ./sigil.yaml if present)\n" ++
    "  --database, -d <type>   Dialect: postgres, mysql, sqlite\n" ++
    "\n" ++
    "Examples:\n" ++
    "  sigil create add_users\n" ++
    "  sigil up --database postgres\n")

def version : Text := ascii "sigil 0.4.0\n"

def UsageError.output (e : UsageError) : Output :=
  ⟨1, [], e.message ++ ascii "\n\n" ++ usage⟩

def failed (e : Failure) : Output :=
  ⟨2, [], ascii "Error: " ++ e.report ++ ascii "\n"⟩

def migrations (count : Nat) : Text :=
  Text.ofNat count ++ if count = 1 then ascii " migration" else ascii " migrations"

def lines {α : Type} (line : α → Text) (items : List α) : Text :=
  items.flatMap fun item => line item ++ ascii "\n"

def defaultConfig : Path := ascii "sigil.yaml"

def showSetUp (directory config : Path) (s : Migration.SetUp) : Text :=
  (if s.createdDirectory then ascii "Created migrations directory: "
    else ascii "Migrations directory exists: ") ++ directory ++ ascii "\n" ++
  (if s.createdConfig then ascii "Created config file: "
    else ascii "Config file already exists: ") ++ config ++
  ascii "\n\nNext steps:\n  1. Edit " ++ config ++
  ascii (" and configure your database\n" ++
    "  2. Run sigil create <name> to create your first migration\n" ++
    "  3. Run sigil up to apply migrations\n")

def showCreated (path : Path) : Text :=
  ascii "Created migration: " ++ path.fileName ++ ascii "\n  Location: " ++ path ++ ascii "\n"

def showApplied (r : Run.Applied) : Text :=
  if r.applied.isEmpty then ascii "No pending migrations to apply\n"
  else
    ascii "Applied " ++ migrations r.applied.length ++ ascii " (batch " ++ Text.ofInt r.batch ++
      ascii "):\n" ++ lines (ascii "  + " ++ ·) r.applied ++
      if r.skipped.isEmpty then []
      else
        ascii "\nSkipped " ++ Text.ofNat r.skipped.length ++
          (if r.skipped.length = 1 then ascii " already applied migration\n"
            else ascii " already applied migrations\n")

def showRolledBack (r : Run.RolledBack) : Text :=
  if r.rolledBack.isEmpty then ascii "No migrations to roll back\n"
  else
    ascii "Rolled back " ++ migrations r.rolledBack.length ++ ascii " (batch " ++
      Text.ofInt r.batch ++ ascii "):\n" ++ lines (ascii "  - " ++ ·) r.rolledBack

def showEntry (e : Ledger.Entry) : Text :=
  ascii "  + " ++ e.file ++ ascii "  [batch " ++ Text.ofInt e.batch ++ ascii ", " ++ e.appliedAt ++
    ascii "]"

def showStatus (s : Run.Status) : Text :=
  ascii "Migration Status\n\n" ++
  if s.applied.isEmpty && s.pending.isEmpty then ascii "No migrations found\n"
  else
    ascii "Current batch: " ++ Text.ofInt s.currentBatch ++ ascii "\n\n" ++
    (if s.applied.isEmpty then []
      else
        ascii "Applied (" ++ Text.ofNat s.applied.length ++ ascii "):\n" ++
          lines showEntry s.applied ++ ascii "\n") ++
    if s.pending.isEmpty then ascii "All migrations are up to date\n"
    else
      ascii "Pending (" ++ Text.ofNat s.pending.length ++ ascii "):\n" ++
        lines (ascii "  o " ++ ·) s.pending

/--
The settings. A configuration file that is named must exist; the settings are the defaults, which
are also what a new configuration file says.
-/
def loadSettings : Option Path → Program World Failure Settings
  | none => return Settings.unset.withDefaults
  | some config => do
    if ← Migration.isPresent config then
      return Settings.unset.withDefaults
    else
      throw (.configNotFound config)

def performRun {α : Type} (settings : Settings)
    (run : Sql.Dialect → Path → Program Run.Access Failure α) : Program World Failure α := do
  let dialect ← Program.ofExcept settings.sqlDialect
  Program.ofExcept settings.checkDatabase
  let options := settings.runOptions
  Run.perform options World.pause (run dialect options.ledger)

def Task.perform (settings : Settings) (config : Path) : Task → Program World Failure Text
  | .init => do
    return showSetUp settings.migrations config (← Migration.setUp settings.migrations config)
  | .create name => do
    let now ← World.call .now
    return showCreated (← Migration.create settings.migrations name now)
  | .up => do return showApplied (← performRun settings Run.up)
  | .down => do return showRolledBack (← performRun settings Run.down)
  | .status => do return showStatus (← performRun settings fun _ _ => Run.status)

def runTask (level? : Option Text) (a : Arguments) : Program World Failure Output := do
  match ← (loadSettings a.config?).attempt with
  | .error e => return failed e
  | .ok settings =>
    let settings := { settings with dialect := a.dialect?.getD settings.dialect }
    World.call (.openLog (settings.loggingOptions.filter level?))
    match Task.ofArguments a with
    | .error e => return e.output
    | .ok task =>
      match ← (task.perform settings (a.config?.getD defaultConfig)).attempt with
      | .ok shown => return ⟨0, shown, []⟩
      | .error e =>
        Log.error "Fatal error" [.text "error" e.report]
        return failed e

/--
The program: it reads the arguments, each of which ends at its first zero byte, and does what they
say. The level of the log may be given from outside.
-/
def run (level? : Option Text) (args : List Text) : Program World Failure Output :=
  match Arguments.parse (args.map Text.beforeNul) with
  | .error e => return e.output
  | .ok a =>
    if a.command.isEmpty then return ⟨1, usage, []⟩
    else if a.command == ascii "help" then return ⟨0, usage, []⟩
    else if a.command == ascii "version" then return ⟨0, version, []⟩
    else runTask level? a

end SchemaMigration.Command
