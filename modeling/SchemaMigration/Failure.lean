import SchemaMigration.Schema.Token
import SchemaMigration.Sql.Statement
import SchemaMigration.World

/-!
This module contains everything that can go wrong, as causes, and the words for each cause.
-/

namespace SchemaMigration

inductive FileAction where
  | stat | openForWriting | write | sync | close | replace | openDirectory | syncDirectory
  | openGuard | lockGuard | publish | list
  deriving DecidableEq, Repr

def FileAction.message : FileAction → Text
  | stat => ascii "Cannot stat "
  | openForWriting => ascii "Cannot open for writing "
  | write => ascii "Failed writing "
  | sync => ascii "Cannot sync "
  | close => ascii "Failed closing "
  | replace => ascii "Cannot replace "
  | openDirectory => ascii "Cannot open directory "
  | syncDirectory => ascii "Cannot sync directory "
  | openGuard => ascii "Cannot open "
  | lockGuard => ascii "Cannot lock "
  | publish => ascii "Cannot publish lock file "
  | list => ascii "Cannot list "

inductive Corruption where
  | notJson
  | notObject
  | entriesNotList
  | currentBatchNotNumber
  | badMember
  | incompleteEntry
  | duplicate (file : Text)
  | batchOutside (file : Text) (batch currentBatch : Int)
  | wrongCurrentBatch (currentBatch newest : Int)
  deriving DecidableEq, Repr

def Corruption.message : Corruption → Text
  | notJson => ascii "not valid JSON"
  | notObject => ascii "top level is not an object"
  | entriesNotList => ascii "\"entries\" must be a list"
  | currentBatchNotNumber => ascii "\"currentBatch\" must be a number"
  | badMember => ascii "<json error>"
  | incompleteEntry => ascii "entry without filename or hash"
  | duplicate file => file.inQuotes ++ ascii " is recorded twice"
  | batchOutside file batch currentBatch =>
    file.inQuotes ++ ascii " has batch " ++ Text.ofInt batch ++ ascii " outside 1.." ++
      Text.ofInt currentBatch
  | wrongCurrentBatch currentBatch newest =>
    ascii "\"currentBatch\" is " ++ Text.ofInt currentBatch ++
      ascii " but the newest recorded batch is " ++ Text.ofInt newest

inductive NameFault where
  | empty | tooLong | badByte | badStart | escapesDirectory
  deriving DecidableEq, Repr

def maxNameLength : Nat := 100

def NameFault.message (name : Text) : NameFault → Text
  | empty => ascii "Migration name must not be empty"
  | tooLong =>
    ascii "Migration name too long: " ++ name.inQuotes ++ ascii ". Maximum length is " ++
      Text.ofNat maxNameLength ++ ascii " characters (current: " ++ Text.ofNat name.length ++
      ascii ")"
  | badByte =>
    ascii "Invalid migration name: " ++ name.inQuotes ++
      ascii ". Only alphanumeric characters, underscores, and hyphens are allowed"
  | badStart => ascii "Migration name must start with a letter or number: " ++ name.inQuotes
  | escapesDirectory =>
    ascii "Migration files must be created within the migrations directory: " ++ name.inQuotes

inductive Direction where
  | apply | rollBack
  deriving DecidableEq, Repr

def Direction.participle : Direction → Text
  | apply => ascii "applied"
  | rollBack => ascii "rolled back"

def Direction.advice : Direction → Text
  | apply => ascii "Revert the file and put new changes in a new migration."
  | rollBack => ascii "Revert the file before rolling back."

inductive Failure where
  | parse (e : Schema.ParseError)
  | compile (e : Sql.CompileError)
  | unknownDialect (name : Text)
  | badName (name : Text) (fault : NameFault)
  | refused (action : FileAction) (path : Path) (errno : Errno)
  /-- A file is there, but it cannot be opened in order to read it. -/
  | notOpened (path : Path)
  | notRead (path : Path)
  | fileNotFound (path : Path)
  /-- The temporary file of a lock cannot be created. -/
  | lockFileNotCreated (path : Path)
  | lockNotSerialized
  /-- The temporary file of a lock cannot be written. -/
  | lockFileNotWritten (path : Path)
  | lockTimeout (path : Path) (timeout : Int) (holder : Text)
  | corrupted (ledger : Path) (why : Corruption)
  | ledgerNotSerialized
  | emptyBatch
  | alreadyRecorded (file : Text) (ledger : Path)
  /-- What was read back is not what was written. -/
  | readBackDiffers
  | notWritable (ledger : Path) (cause : Failure)
  | recordedFileMissing (file : Text)
  /-- A recorded migration has another content. -/
  | recordedFileModified (file expected actual : Text) (direction : Direction)
  | fileMissing (file : Text) (direction : Direction)
  | noMigrationsDirectory (directory : Path)
  | sizeUnknown (path : Path) (errno : Errno)
  | fileTooLarge (path : Path) (size limit : Nat)
  /-- All migration files together are too large; the largest are listed. -/
  | totalTooLarge (total limit count : Nat) (largest : List (Path × Nat))
  | overwriteRefused (path : Path)
  | notCreated (path : Path)
  /-- A file was created, but it cannot be written. -/
  | notWritten (path : Path)
  | directoriesNotCreated (path : Path) (errno : Errno)
  /-- It cannot be found out whether something exists. -/
  | presenceUnknown (path : Path) (errno : Errno)
  | database (text : Text)
  | noConnection (cause : Text) (attempts : Nat)
  /-- Statements were committed, but the ledger does not say so. -/
  | inconsistent (direction : Direction) (ledger : Path) (files : List Text) (cause : Failure)
  | configNotFound (path : Path)
  | noDatabase
  /-- The configuration names a database that is not supported. -/
  | postgresDisabled

namespace Failure

/-- A size in megabytes of 2^20 bytes, with two places; a half goes to the even neighbour. -/
def megabytes (bytes : Nat) : Text :=
  let scaled := 100 * bytes / 1 <<< 20
  let rest := 100 * bytes % 1 <<< 20
  let hundredths :=
    if 1 <<< 19 < rest || (rest == 1 <<< 19 && scaled % 2 == 1) then scaled + 1 else scaled
  Text.ofNat (hundredths / 100) ++ byte '.' :: Text.padZeros 2 (Text.ofNat (hundredths % 100)) ++
    ascii "MB"

def noConnectionMessage (cause : Text) (attempts : Nat) : Text :=
  ascii "Failed to connect to database\n\nError: " ++ cause ++
    ascii ("\n\nTroubleshooting steps:\n" ++
      "1. Verify the database server is running\n" ++
      "2. Check the database settings in sigil.yaml\n" ++
      "3. Verify network connectivity to the database\n" ++
      "4. Check database user credentials and permissions\n" ++
      "5. Ensure the database exists and is accessible\n\n" ++
      "Attempted ") ++
    Text.ofNat attempts ++
    (if attempts = 1 then ascii " time." else ascii " times with exponential backoff.")

/--
The words for a failure. A message ends at its first zero byte, which also holds for the message of
a cause within another message.
-/
def message : Failure → Text
  | parse e => e.message
  | compile e => e.message
  | unknownDialect name =>
    ascii "Unknown dialect: " ++ name.inQuotes ++ ascii " (expected postgres, mysql or sqlite)"
  | badName name fault => fault.message name
  | refused action path errno => action.message ++ path ++ ascii ": " ++ errno.message
  | notOpened path => ascii "Cannot open " ++ path ++ ascii " for reading"
  | notRead path => ascii "Failed reading " ++ path
  | fileNotFound path => ascii "File not found: " ++ path
  | lockFileNotCreated path => ascii "Cannot create lock file " ++ path
  | lockNotSerialized => ascii "Failed to serialize lock record: <json error>"
  | lockFileNotWritten path => ascii "Failed writing lock file " ++ path
  | lockTimeout path timeout holder =>
    ascii "Could not acquire lock " ++ path ++ ascii " within " ++ Text.ofInt timeout ++
      ascii "ms (held by " ++ holder ++
      ascii "). If no other sigil process is running, delete the lock file and retry."
  | corrupted ledger why =>
    ascii "Ledger file " ++ ledger ++ ascii " is corrupted: " ++ why.message ++
      ascii (". Restore the ledger from a backup, or delete it only if the database schema is " ++
        "reset as well.")
  | ledgerNotSerialized => ascii "Failed to serialize ledger: <json error>"
  | emptyBatch => ascii "RecordBatch requires at least one migration"
  | alreadyRecorded file ledger =>
    ascii "Migration " ++ file.inQuotes ++ ascii " is already recorded in the ledger " ++ ledger ++
      ascii "; another process may have applied it concurrently."
  | readBackDiffers => ascii "read-back differs from what was written"
  | notWritable ledger cause =>
    ascii "Ledger " ++ ledger ++ ascii " is not writable: " ++ cause.message.beforeNul ++
      ascii ". Fix permissions or disk space before applying migrations."
  | recordedFileMissing file =>
    ascii "Migration " ++ file.inQuotes ++
      ascii (" is recorded in the ledger but missing from the migrations directory. Restore the " ++
        "file; applied migrations must not be deleted.")
  | recordedFileModified file expected actual direction =>
    ascii "Migration " ++ file.inQuotes ++
      ascii " was modified after it was applied. Expected hash: " ++ expected ++
      ascii ", actual hash: " ++ actual ++ ascii ". " ++ direction.advice
  | fileMissing file direction =>
    ascii "Migration file " ++ file.inQuotes ++ ascii " is missing but expected to be " ++
      direction.participle ++
      ascii ". Restore it to the migrations directory before running sigil again."
  | noMigrationsDirectory directory =>
    ascii "Migrations directory not found: " ++ directory ++
      ascii ". Run \"sigil init\" or set migrations_path in sigil.yaml."
  | sizeUnknown path errno =>
    ascii "Cannot get file size for " ++ path.inQuotes ++ ascii ": " ++ errno.message
  | fileTooLarge path size limit =>
    ascii "Migration file too large: " ++ path.inQuotes ++ ascii "\n  File size: " ++
      megabytes size ++ ascii "\n  Maximum allowed: " ++ megabytes limit ++
      ascii "\n\nRaise limits.max_file_bytes in sigil.yaml if this file is intended."
  | totalTooLarge total limit count largest =>
    ascii "Total migration files size exceeds limit\n  Total size: " ++ megabytes total ++
      ascii "\n  Maximum allowed: " ++ megabytes limit ++ ascii "\n  Number of files: " ++
      Text.ofNat count ++ ascii "\n\nLargest files:\n" ++
      largest.flatMap
        (fun entry => ascii "  - " ++ entry.1 ++ ascii ": " ++ megabytes entry.2 ++ ascii "\n") ++
      ascii "\nArchive old migrations or raise limits.max_total_bytes in sigil.yaml."
  | overwriteRefused path => ascii "Refusing to overwrite existing file: " ++ path
  | notCreated path => ascii "Cannot create " ++ path
  | notWritten path => ascii "Failed writing " ++ path
  | directoriesNotCreated path errno =>
    ascii "filesystem error: cannot create directories: " ++ errno.message ++ ascii " [" ++ path ++
      ascii "]"
  | presenceUnknown path errno =>
    ascii "filesystem error: status: " ++ errno.message ++ ascii " [" ++ path ++ ascii "]"
  | database text => text
  | noConnection cause attempts => noConnectionMessage cause attempts
  | inconsistent direction ledger files cause =>
    ascii "CRITICAL: " ++ Text.ofNat files.length ++ ascii " migration(s) were " ++
      direction.participle ++ ascii " in the database but the ledger " ++ ledger ++
      ascii " could not be updated: " ++ cause.message.beforeNul ++
      ascii "\nAffected migrations:\n" ++
      files.flatMap (fun file => ascii "  - " ++ file ++ ascii "\n") ++
      ascii ("Do NOT re-run sigil until the ledger matches the database. Fix the ledger file by " ++
        "hand or restore it from a backup.")
  | configNotFound path => ascii "Config file not found: " ++ path
  | noDatabase =>
    ascii "No database configured: set database.sqlite or database.postgres in sigil.yaml"
  | postgresDisabled =>
    ascii ("Postgres support is not enabled in this build (rebuild with SIGIL_DB_POSTGRES=ON)")

def report (f : Failure) : Text := f.message.beforeNul

structure Oversize where
  path : Path
  size : Nat
  limit : Nat
  deriving DecidableEq, Repr

/-- What was found to be too large, if anything was; several files have no path in common. -/
def oversize? : Failure → Option Oversize
  | fileTooLarge path size limit => some ⟨path, size, limit⟩
  | totalTooLarge total limit _ _ => some ⟨ascii "<multiple files>", total, limit⟩
  | _ => none

inductive Kind where
  | parse | compile | integrity | lockTimeout | operational | connection | fileSize
  | inconsistentState | general | database | fileSystem
  deriving DecidableEq, Repr

def kind : Failure → Kind
  | parse _ => .parse
  | compile _ => .compile
  | unknownDialect _ | badName .. | emptyBatch | overwriteRefused _ | configNotFound _
  | noDatabase | postgresDisabled => .general
  | refused .. | notOpened _ | notRead _ | fileNotFound _ | lockFileNotCreated _
  | lockNotSerialized | lockFileNotWritten _ | ledgerNotSerialized | noMigrationsDirectory _
  | sizeUnknown .. | notCreated _ | notWritten _ => .operational
  | lockTimeout .. => .lockTimeout
  | corrupted .. | alreadyRecorded .. | readBackDiffers | notWritable .. | recordedFileMissing _
  | recordedFileModified .. | fileMissing .. => .integrity
  | fileTooLarge .. | totalTooLarge .. => .fileSize
  | directoriesNotCreated .. | presenceUnknown .. => .fileSystem
  | database _ => .database
  | noConnection .. => .connection
  | inconsistent .. => .inconsistentState

end Failure

end SchemaMigration
