import SchemaMigration.Digest

/-!
This module contains migration files.
-/

namespace SchemaMigration

structure MigrationFile where
  name : Text
  content : Text
  deriving DecidableEq, Repr

def MigrationFile.hash (f : MigrationFile) : Text := Digest.contentHash f.content

def MigrationFile.find? (files : List MigrationFile) (name : Text) : Option MigrationFile :=
  files.find? (·.name == name)

end SchemaMigration
