import SchemaMigration.Run.Access

/-!
This module contains the settings of the program and the defaults for what is not set. An empty
text and a zero count as not set.
-/

namespace SchemaMigration

inductive Database where
  | sqlite (path : Text)
  | postgres (uri : Text)
  deriving DecidableEq, Repr

namespace Settings

structure Limits where
  enabled : Option Bool
  maxFile : Nat
  maxTotal : Nat
  deriving DecidableEq, Repr

/-- The settings of locks, in milliseconds. -/
structure Lock where
  timeout : Nat
  retryInterval : Nat
  deriving DecidableEq, Repr

/-- The settings of the connection to the database; the delay is in milliseconds. -/
structure Connection where
  maxAttempts : Nat
  baseDelay : Nat
  deriving DecidableEq, Repr

structure Logging where
  console : Option Bool
  file : Text
  level : Text
  pattern : Text
  audit : Option Bool
  deriving DecidableEq, Repr

end Settings

structure Settings where
  migrations : Text
  ledger : Text
  dialect : Text
  database : Option Database
  limits : Settings.Limits
  lock : Settings.Lock
  connection : Settings.Connection
  logging : Settings.Logging
  deriving DecidableEq, Repr

structure Logging where
  console : Bool
  file : Text
  level : Text
  pattern : Text
  audit : Bool
  deriving DecidableEq, Repr

/-- What the log keeps. A level given from outside stands in for the one of the settings. -/
def Logging.filter (l : Logging) (level? : Option Text) : Log.Filter where
  threshold := match level? with
    | some level => .ofName level
    | none => .ofSetting l.level
  audit := l.audit
  sink := l.console || !l.file.isEmpty

namespace Settings

def textOr (t : Text) (default : String) : Text := if t.isEmpty then ascii default else t

def natOr (n default : Nat) : Nat := if n = 0 then default else n

def unset : Settings where
  migrations := []
  ledger := []
  dialect := []
  database := none
  limits := ⟨none, 0, 0⟩
  lock := ⟨0, 0⟩
  connection := ⟨0, 0⟩
  logging := ⟨none, [], [], [], none⟩

def withDefaults (s : Settings) : Settings where
  migrations := textOr s.migrations "./migrations"
  ledger := textOr s.ledger "./.sigil_ledger.json"
  dialect := textOr s.dialect "sqlite"
  database := some (s.database.getD (.sqlite (ascii "./sigil.db")))
  limits :=
    ⟨some (s.limits.enabled.getD true), natOr s.limits.maxFile (5 * 1024 * 1024),
      natOr s.limits.maxTotal (50 * 1024 * 1024)⟩
  lock := ⟨natOr s.lock.timeout 30000, natOr s.lock.retryInterval 100⟩
  connection := ⟨natOr s.connection.maxAttempts 3, natOr s.connection.baseDelay 1000⟩
  logging :=
    { s.logging with
      console := some (s.logging.console.getD true)
      audit := some (s.logging.audit.getD true)
      level := textOr s.logging.level "info" }

def loggingOptions (s : Settings) : SchemaMigration.Logging where
  console := s.logging.console.getD true
  file := s.logging.file
  level := textOr s.logging.level "info"
  pattern := s.logging.pattern
  audit := s.logging.audit.getD true

def runOptions (s : Settings) : Run.Options where
  migrations := s.migrations
  ledger := s.ledger
  limits := ⟨s.limits.enabled.getD false, s.limits.maxFile, s.limits.maxTotal⟩
  lock := ⟨s.lock.timeout, s.lock.retryInterval⟩
  connection := ⟨s.connection.maxAttempts, s.connection.baseDelay⟩

def sqlDialect (s : Settings) : Except Failure Sql.Dialect :=
  match Sql.Dialect.ofName? s.dialect with
  | some dialect => .ok dialect
  | none => .error (.unknownDialect s.dialect)

def checkDatabase (s : Settings) : Except Failure Unit :=
  match s.database with
  | some (.sqlite _) => .ok ()
  | some (.postgres _) => .error .postgresDisabled
  | none => .error .noDatabase

end Settings

end SchemaMigration
