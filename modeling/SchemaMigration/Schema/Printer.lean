import SchemaMigration.Schema.Lexer
import SchemaMigration.Schema.Tree

/-!
This module contains the printer, which writes a schema tree as a source. An argument is written
bare where the lexer reads it back unchanged, and as a string otherwise.
-/

namespace SchemaMigration.Schema

def isBareWord : Text → Bool
  | [] => false
  | b :: rest =>
    Byte.isWordStart b && rest.all Byte.isWordPart && !isReservedWord (b :: rest)

def isBareNumber (t : Text) : Bool :=
  match t.splitFirst (· == byte '.') with
  | (whole, none) => isDigits whole
  | (whole, some fraction) => isDigits whole && isDigits fraction
where
  isDigits (t : Text) : Bool := !t.isEmpty && t.all Byte.isDigit

def isBareReference (t : Text) : Bool :=
  match t.splitFirst (· == byte '.') with
  | (_, none) => false
  | (table, some column) => isBareWord table && isBareWord column

namespace Printer

def escape (b : UInt8) : Text :=
  if b == byte '\n' then ascii "\\n"
  else if b == byte '\t' then ascii "\\t"
  else if b == byte '\r' then ascii "\\r"
  else if b == byte '\\' then ascii "\\\\"
  else if b == byte '"' then ascii "\\\""
  else [b]

def quote (t : Text) : Text := Text.inQuotes (t.flatMap escape)

def argument (allowReference : Bool) (t : Text) : Text :=
  if isBareWord t || isBareNumber t || (allowReference && isBareReference t) then t else quote t

def arguments (allowReference : Bool) : Option (List Text) → Text
  | none => []
  | some args =>
    byte '(' :: Text.join (ascii ", ") (args.map (argument allowReference)) ++ [byte ')']

def decorator (d : Decorator) : Text := ascii " @" ++ d.name ++ arguments true d.args?

def column (c : Column) : Text :=
  ascii "  " ++ c.name ++ byte ' ' :: c.type ++ arguments false c.typeArgs? ++
    c.decorators.flatMap decorator ++ [byte '\n']

def model (m : Model) : Text :=
  ascii "model " ++ m.name ++ ascii " \x7b\n" ++ m.columns.flatMap column ++ ascii "\x7d\n"

def rawSql (sql : Text) : Text := ascii "> " ++ sql ++ [byte '\n']

end Printer

/-- A schema as a source: the models, then the raw SQL, with empty lines between. -/
def print (s : Schema) : Text :=
  Text.join [byte '\n'] (s.models.map Printer.model) ++
    (if !s.models.isEmpty && !s.rawSql.isEmpty then [byte '\n'] else []) ++
    s.rawSql.flatMap Printer.rawSql

end SchemaMigration.Schema
