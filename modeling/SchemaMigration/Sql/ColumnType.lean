import SchemaMigration.Schema.Tree
import SchemaMigration.Schema.Token
import SchemaMigration.Sql.Quote

/-!
This module contains how each dialect writes the type of a column. Each of them has its own table of
types, and checks the arguments of a type where its table asks for them.
-/

namespace SchemaMigration.Sql

open Schema (Column)

inductive ColumnFault where
  | unknownDecorator (name : Text)
  | argumentCount (decorator : Text) (count : Nat)
  | unexpectedArguments (decorator : Text)
  | onDeleteWithoutRef
  | unknownAction (action : Text)
  | badReference (target : Text)
  | lengthCount (type : Text) (count : Nat)
  | badLength (type arg : Text)
  | precisionCount (type : Text) (count : Nat)
  | badPrecision (type arg : Text)
  | enumerationWithoutMembers
  | unexpectedTypeArguments (type : Text)
  | unknownType (type : Text)
  deriving DecidableEq, Repr

def ColumnFault.message : ColumnFault → Text
  | unknownDecorator name => ascii "Unknown decorator: @" ++ name
  | argumentCount decorator count =>
    byte '@' :: decorator ++ ascii " expects exactly one argument, got " ++ Text.ofNat count
  | unexpectedArguments decorator => byte '@' :: decorator ++ ascii " does not take arguments"
  | onDeleteWithoutRef => ascii "@onDelete requires @ref on the same column"
  | unknownAction action =>
    ascii "@onDelete action " ++ action.inQuotes ++
      ascii " is not one of cascade, set-null, set-default, restrict, no-action"
  | badReference target =>
    ascii "Invalid reference format: " ++ target ++ ascii ". Expected Table.column"
  | lengthCount type count =>
    type ++ ascii " takes at most one length argument, got " ++ Text.ofNat count
  | badLength type arg =>
    type ++ ascii " length must be an unsigned integer, got " ++ arg.inQuotes
  | precisionCount type count =>
    type ++ ascii " takes at most precision and scale, got " ++ Text.ofNat count ++
      ascii " arguments"
  | badPrecision type arg =>
    type ++ ascii " precision and scale must be unsigned integers, got " ++ arg.inQuotes
  | enumerationWithoutMembers => ascii "Enum type requires values"
  | unexpectedTypeArguments type => type ++ ascii " does not take type arguments"
  | unknownType type => ascii "Unknown type: " ++ type

def hasType (c : Column) (names : List String) : Bool := names.any (ascii · == c.type)

def lengthArgument? (c : Column) : Except ColumnFault (Option Text) :=
  match c.typeArgs with
  | [] => .ok none
  | [arg] => if isUnsignedInteger arg then .ok (some arg) else .error (.badLength c.type arg)
  | args => .error (.lengthCount c.type args.length)

def precisionArguments (c : Column) : Except ColumnFault (List Text) :=
  if 2 < c.typeArgs.length then
    .error (.precisionCount c.type c.typeArgs.length)
  else
    match c.typeArgs.find? (!isUnsignedInteger ·) with
    | some arg => .error (.badPrecision c.type arg)
    | none => .ok c.typeArgs

def enumerationMembers (c : Column) : Except ColumnFault (List Text) :=
  if c.typeArgs.isEmpty then .error .enumerationWithoutMembers else .ok c.typeArgs

def noTypeArguments (c : Column) : Except ColumnFault Unit :=
  if c.typeArgs.isEmpty then .ok () else .error (.unexpectedTypeArguments c.type)

def plainType (table : List (List String × String)) (c : Column) : Except ColumnFault Text :=
  match table.find? fun row => hasType c row.1 with
  | some row => .ok (ascii row.2)
  | none => .error (.unknownType c.type)

def literals (members : List Text) : Text := Text.join (ascii ", ") (members.map quoteLiteral)

def withArgument (word arg : Text) : Text := word ++ byte '(' :: arg ++ [byte ')']

def withArguments (word first second : Text) : Text :=
  word ++ byte '(' :: first ++ ascii ", " ++ second ++ [byte ')']

namespace Postgres

def minEnumerationWidth : Nat := 50

def plainTypes : List (List String × String) :=
  [(["Serial"], "SERIAL"), (["Int"], "INTEGER"), (["BigInt"], "BIGINT"),
    (["SmallInt"], "SMALLINT"), (["Text"], "TEXT"), (["Boolean"], "BOOLEAN"),
    (["Timestamp"], "TIMESTAMP"), (["Date"], "DATE"), (["Time"], "TIME"), (["Real"], "REAL"),
    (["DoublePrecision"], "DOUBLE PRECISION"), (["Json"], "JSON"), (["Jsonb"], "JSONB"),
    (["Uuid"], "UUID")]

/-- The type of a column. An enumeration is a text wide enough for its longest member. -/
def columnType (c : Column) : Except ColumnFault Text :=
  if hasType c ["VarChar", "Char"] then do
    let base := if hasType c ["VarChar"] then ascii "VARCHAR" else ascii "CHAR"
    match ← lengthArgument? c with
    | some length => return withArgument base length
    | none => return base
  else if hasType c ["Decimal", "Numeric"] then do
    match ← precisionArguments c with
    | [precision, scale] => return withArguments (ascii "NUMERIC") precision scale
    | [precision] => return withArgument (ascii "NUMERIC") precision
    | _ => return ascii "NUMERIC"
  else if hasType c ["Enum"] then do
    let members ← enumerationMembers c
    let width := members.foldl (fun width m => max width m.length) minEnumerationWidth
    return withArgument (ascii "VARCHAR") (Text.ofNat width)
  else do
    noTypeArguments c
    plainType plainTypes c

end Postgres

namespace Mysql

def plainTypes : List (List String × String) :=
  [(["Serial"], "INT AUTO_INCREMENT"), (["Int"], "INT"), (["BigInt"], "BIGINT"),
    (["SmallInt"], "SMALLINT"), (["Text"], "TEXT"), (["Boolean"], "BOOLEAN"),
    (["Timestamp"], "TIMESTAMP"), (["Date"], "DATE"), (["Time"], "TIME"), (["Real"], "FLOAT"),
    (["DoublePrecision"], "DOUBLE"), (["Json", "Jsonb"], "JSON"), (["Uuid"], "CHAR(36)")]

/-- The type of a column. Texts always have a length, and there are enumerations. -/
def columnType (c : Column) : Except ColumnFault Text :=
  if hasType c ["VarChar"] then do
    return withArgument (ascii "VARCHAR") ((← lengthArgument? c).getD (ascii "255"))
  else if hasType c ["Char"] then do
    return withArgument (ascii "CHAR") ((← lengthArgument? c).getD (ascii "1"))
  else if hasType c ["Decimal", "Numeric"] then do
    match ← precisionArguments c with
    | [precision, scale] => return withArguments (ascii "DECIMAL") precision scale
    | [precision] => return withArgument (ascii "DECIMAL") precision
    | _ => return withArguments (ascii "DECIMAL") (ascii "10") (ascii "2")
  else if hasType c ["Enum"] then do
    return withArgument (ascii "ENUM") (literals (← enumerationMembers c))
  else do
    noTypeArguments c
    plainType plainTypes c

end Mysql

namespace Sqlite

def plainTypes : List (List String × String) :=
  [(["Serial", "Int", "BigInt", "SmallInt", "Boolean"], "INTEGER"),
    (["Text", "Timestamp", "Date", "Time", "Json", "Jsonb", "Uuid"], "TEXT"),
    (["Real", "DoublePrecision"], "REAL")]

/-- The type of a column. Lengths and precisions are checked, but not used. -/
def columnType (c : Column) : Except ColumnFault Text :=
  if hasType c ["VarChar", "Char"] then do
    let _ ← lengthArgument? c
    return ascii "TEXT"
  else if hasType c ["Decimal", "Numeric"] then do
    let _ ← precisionArguments c
    return ascii "REAL"
  else if hasType c ["Enum"] then do
    let _ ← enumerationMembers c
    return ascii "TEXT"
  else do
    noTypeArguments c
    plainType plainTypes c

end Sqlite

def columnType : Dialect → Column → Except ColumnFault Text
  | .postgres => Postgres.columnType
  | .mysql => Mysql.columnType
  | .sqlite => Sqlite.columnType

end SchemaMigration.Sql
