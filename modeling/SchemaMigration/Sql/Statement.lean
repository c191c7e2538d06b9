import SchemaMigration.Sql.ColumnType

/-!
This module contains the statements that create and drop the tables of a schema.
-/

namespace SchemaMigration.Sql

open Schema (Column Decorator Model)

inductive Action where
  | cascade | setNull | setDefault | restrict | noAction
  deriving DecidableEq, Repr

namespace Action

def all : List Action := [.cascade, .setNull, .setDefault, .restrict, .noAction]

def name : Action → Text
  | cascade => ascii "CASCADE"
  | setNull => ascii "SET NULL"
  | setDefault => ascii "SET DEFAULT"
  | restrict => ascii "RESTRICT"
  | noAction => ascii "NO ACTION"

def isSeparator (b : UInt8) : Bool := b == byte ' ' || b == byte '_' || b == byte '-'

/--
Upper cases the words of an action and puts one space between neighbours. The first argument says
whether a word has been written, the second whether a separator stands between it and the next byte.
-/
def normalize (started separated : Bool) : Text → Text
  | [] => []
  | b :: rest =>
    if isSeparator b then
      normalize started started rest
    else if separated then
      byte ' ' :: Byte.toUpper b :: normalize true false rest
    else
      Byte.toUpper b :: normalize true false rest

def ofText? (t : Text) : Option Action :=
  all.find? (·.name == normalize false false t)

end Action

inductive CompileError where
  | identifier (e : IdentifierError)
  | column (model name : Text) (fault : ColumnFault)
  deriving DecidableEq, Repr

def CompileError.message : CompileError → Text
  | identifier e => e.message
  | column model name fault =>
    ascii "Model " ++ model.inQuotes ++ ascii ", column " ++ name.inQuotes ++ ascii ": " ++
      fault.message

namespace Table

inductive Known where
  | primaryKey | unique | notNull | default | reference | onDelete
  deriving DecidableEq, Repr

def Known.all : List Known := [.primaryKey, .unique, .notNull, .default, .reference, .onDelete]

def Known.name : Known → Text
  | primaryKey => ascii "pk"
  | unique => ascii "unique"
  | notNull => ascii "notnull"
  | default => ascii "default"
  | reference => ascii "ref"
  | onDelete => ascii "onDelete"

/-- Whether a known decorator has exactly one argument; the others have no parentheses. -/
def Known.takesArgument : Known → Bool
  | default | reference | onDelete => true
  | primaryKey | unique | notNull => false

def Known.ofName? (name : Text) : Option Known := all.find? (·.name == name)

def decoratorFault? (d : Decorator) : Option ColumnFault :=
  match Known.ofName? d.name with
  | none => some (.unknownDecorator d.name)
  | some known =>
    if known.takesArgument then
      if d.args.length = 1 then none else some (.argumentCount d.name d.args.length)
    else if d.arguments.written then some (.unexpectedArguments d.name)
    else none

def argument? (c : Column) (known : Known) : Option Text :=
  match c.decorator? known.name with
  | none => none
  | some d => d.args.head?

def onDeleteFault? (c : Column) : Option ColumnFault :=
  match argument? c .onDelete with
  | none => none
  | some action =>
    if (c.decorator? Known.reference.name).isNone then some .onDeleteWithoutRef
    else if (Action.ofText? action).isNone then some (.unknownAction action)
    else none

def decoratorsFault? (c : Column) : Option ColumnFault :=
  match c.decorators.findSome? decoratorFault? with
  | some fault => some fault
  | none => onDeleteFault? c

def booleanLiteral : Dialect → Bool → Text
  | .postgres, true => ascii "TRUE"
  | .postgres, false => ascii "FALSE"
  | _, true => ascii "1"
  | _, false => ascii "0"

def defaultValue (dialect : Dialect) (value : Text) : Text :=
  let lowered := value.lower
  if lowered == ascii "now" then ascii "CURRENT_TIMESTAMP"
  else if lowered == ascii "true" then booleanLiteral dialect true
  else if lowered == ascii "false" then booleanLiteral dialect false
  else if isNumericLiteral value then value
  else quoteLiteral value

/-- The primary key clause of a column. SQLite numbers integer keys itself. -/
def primaryKey (dialect : Dialect) (c : Column) : Text :=
  if dialect = .sqlite && hasType c ["Serial", "Int"] then ascii "PRIMARY KEY AUTOINCREMENT"
  else ascii "PRIMARY KEY"

def primaryKeyLast : Dialect → Bool
  | .mysql => true
  | _ => false

/-- What a decorator adds to the definition of its column, with the blank before it. -/
def clause (dialect : Dialect) (c : Column) (d : Decorator) : Text :=
  match Known.ofName? d.name with
  | some .primaryKey => if primaryKeyLast dialect then [] else byte ' ' :: primaryKey dialect c
  | some .unique => ascii " UNIQUE"
  | some .notNull => ascii " NOT NULL"
  | some .default => ascii " DEFAULT " ++ defaultValue dialect (d.args.headD [])
  | some .reference | some .onDelete | none => []

def lastClause (dialect : Dialect) (c : Column) : Text :=
  if primaryKeyLast dialect && c.decorators.any (·.name == Known.primaryKey.name) then
    byte ' ' :: primaryKey dialect c
  else
    []

def inColumn {α : Type} (m : Model) (c : Column) (result : Except ColumnFault α) :
    Except CompileError α :=
  result.mapError (.column m.name c.name)

def quoted (dialect : Dialect) (role name : Text) : Except CompileError Text :=
  (quoteIdentifier dialect role name).mapError .identifier

/-- The check that stands in for an enumeration where there are none, with the blank before it. -/
def memberCheck (dialect : Dialect) (m : Model) (c : Column) : Except CompileError Text :=
  if dialect ≠ .mysql && hasType c ["Enum"] then do
    let name ← quoted dialect (ascii "column name") c.name
    let members ← inColumn m c (enumerationMembers c)
    return ascii " CHECK (" ++ name ++ ascii " IN (" ++ literals members ++ ascii "))"
  else
    return []

def definition (dialect : Dialect) (m : Model) (c : Column) : Except CompileError Text := do
  let type ← inColumn m c (columnType dialect c)
  let name ← quoted dialect (ascii "column name") c.name
  let check ← memberCheck dialect m c
  return name ++ byte ' ' :: type ++ c.decorators.flatMap (clause dialect c) ++ check ++
    lastClause dialect c

def referenceParts? (target : Text) : Option (Text × Text) :=
  match target.splitFirst (· == byte '.') with
  | (_, none) => none
  | (table, some column) =>
    if table.isEmpty || column.isEmpty || column.any (· == byte '.') then none
    else some (table, column)

def foreignKey (dialect : Dialect) (m : Model) (c : Column) (target : Text) :
    Except CompileError Text :=
  match referenceParts? target with
  | none => inColumn m c (.error (.badReference target))
  | some (table, column) => do
    let column ← quoted dialect (ascii "referenced column") column
    let table ← quoted dialect (ascii "referenced table") table
    let name ← quoted dialect (ascii "column name") c.name
    return ascii "FOREIGN KEY (" ++ name ++ ascii ") REFERENCES " ++ table ++ byte '(' :: column ++
      byte ')' :: (match (argument? c .onDelete).bind Action.ofText? with
        | some action => ascii " ON DELETE " ++ action.name
        | none => [])

def columnParts (dialect : Dialect) (m : Model) (c : Column) :
    Except CompileError (Text × Option Text) :=
  match decoratorsFault? c with
  | some fault => inColumn m c (.error fault)
  | none => do
    let definition ← definition dialect m c
    match argument? c .reference with
    | none => return (definition, none)
    | some target => return (definition, some (← foreignKey dialect m c target))

def suffix : Dialect → Text
  | .mysql => ascii " ENGINE=InnoDB DEFAULT CHARSET=utf8mb4 COLLATE=utf8mb4_unicode_ci;"
  | _ => ascii ";"

def body : List Text → Text
  | [] => []
  | parts => Text.join (ascii ",\n") (parts.map (ascii "  " ++ ·)) ++ [byte '\n']

def create (dialect : Dialect) (m : Model) : Except CompileError Text := do
  let table ← quoted dialect (ascii "table name") m.name
  let parts ← m.columns.mapM (columnParts dialect m)
  return ascii "CREATE TABLE " ++ table ++ ascii " (\n" ++
    body (parts.map (·.1) ++ parts.filterMap (·.2)) ++ byte ')' :: suffix dialect

def drop (dialect : Dialect) (m : Model) : Except CompileError Text := do
  let table ← quoted dialect (ascii "table name") m.name
  return ascii "DROP TABLE IF EXISTS " ++ table ++ ascii ";"

end Table

/-- The statements that apply a schema: its tables in order, then its raw SQL. -/
def up (dialect : Dialect) (s : Schema) : Except CompileError (List Text) := do
  let tables ← s.models.mapM (Table.create dialect)
  return tables ++ s.rawSql

/-- The statements that undo a schema: its tables are dropped in reverse order. -/
def down (dialect : Dialect) (s : Schema) : Except CompileError (List Text) :=
  s.models.reverse.mapM (Table.drop dialect)

end SchemaMigration.Sql
