import SchemaMigration.Text

/-!
This module contains schema trees: models with columns, their decorators, and raw SQL.
-/

namespace SchemaMigration.Schema

/--
The arguments of a decorator or of a type, and whether parentheses are written around them. Only a
tree that was not read from a source can have arguments without parentheses.
-/
structure Arguments where
  written : Bool
  values : List Text
  deriving DecidableEq, Repr

namespace Arguments

def ofOption : Option (List Text) → Arguments
  | none => ⟨false, []⟩
  | some values => ⟨true, values⟩

instance : Coe (Option (List Text)) Arguments := ⟨ofOption⟩

def toOption (a : Arguments) : Option (List Text) := if a.written then some a.values else none

end Arguments

structure Decorator where
  name : Text
  arguments : Arguments
  deriving DecidableEq, Repr

namespace Decorator

def args (d : Decorator) : List Text := d.arguments.values

def args? (d : Decorator) : Option (List Text) := d.arguments.toOption

end Decorator

structure Column where
  name : Text
  type : Text
  typeArguments : Arguments
  decorators : List Decorator
  deriving DecidableEq, Repr

namespace Column

def typeArgs (c : Column) : List Text := c.typeArguments.values

def typeArgs? (c : Column) : Option (List Text) := c.typeArguments.toOption

def decorator? (c : Column) (name : Text) : Option Decorator :=
  c.decorators.find? (·.name == name)

end Column

structure Model where
  name : Text
  columns : List Column
  deriving DecidableEq, Repr

end SchemaMigration.Schema

namespace SchemaMigration

structure Schema where
  models : List Schema.Model
  rawSql : List Text
  deriving DecidableEq, Repr

end SchemaMigration
