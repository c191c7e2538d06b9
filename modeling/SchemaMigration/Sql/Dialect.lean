import SchemaMigration.Text

/-!
This module contains the SQL dialects, and what each demands of identifiers.
-/

namespace SchemaMigration.Sql

inductive Dialect where
  | postgres | mysql | sqlite
  deriving DecidableEq, Repr

namespace Dialect

def name : Dialect → Text
  | postgres => ascii "postgres"
  | mysql => ascii "mysql"
  | sqlite => ascii "sqlite"

def productName : Dialect → Text
  | postgres => ascii "PostgreSQL"
  | mysql => ascii "MySQL"
  | sqlite => ascii "SQLite"

def ofName? (name : Text) : Option Dialect :=
  let lowered := name.lower
  if [ascii "postgres", ascii "postgresql", ascii "pg"].contains lowered then some postgres
  else if [ascii "mysql", ascii "mariadb"].contains lowered then some mysql
  else if [ascii "sqlite", ascii "sqlite3"].contains lowered then some sqlite
  else none

def quoteByte : Dialect → UInt8
  | postgres => byte '"'
  | mysql => 0x60
  | sqlite => byte '"'

def maxIdentifierLength : Dialect → Nat
  | postgres => 63
  | mysql => 64
  | sqlite => 256

end Dialect

end SchemaMigration.Sql
