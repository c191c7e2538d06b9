import SchemaMigration.Sql.Dialect

/-!
This module contains quoted identifiers and string literals. Inside quotes the quote byte is written
twice.
-/

namespace SchemaMigration.Sql

def enclose (quote : UInt8) (t : Text) : Text :=
  quote :: t.flatMap (fun b => if b == quote then [b, b] else [b]) ++ [quote]

inductive IdentifierFault where
  | empty
  | badStart
  | badByte
  | tooLong (limit : Nat)
  deriving DecidableEq, Repr

structure IdentifierError where
  dialect : Dialect
  role : Text
  name : Text
  fault : IdentifierFault
  deriving DecidableEq, Repr

def IdentifierError.message (e : IdentifierError) : Text :=
  ascii "Invalid " ++ e.dialect.productName ++ ascii " " ++ e.role ++ ascii ": " ++
    match e.fault with
    | .empty => ascii "cannot be empty"
    | .badStart => e.name.inQuotes ++ ascii " must start with a letter or underscore"
    | .badByte =>
      e.name.inQuotes ++ ascii (" contains invalid characters. Use only letters, numbers, " ++
        "underscores, hyphens, and dots.")
    | .tooLong limit =>
      e.name.inQuotes ++ ascii " is too long. Maximum length is " ++ Text.ofNat limit ++
        ascii " characters."

def isIdentifierByte (b : UInt8) : Bool :=
  Byte.isWordPart b || b == byte '.' || b == byte '-'

def identifierFault? (limit : Nat) : Text → Option IdentifierFault
  | [] => some .empty
  | b :: rest =>
    if !Byte.isWordStart b then some .badStart
    else if !(b :: rest).all isIdentifierByte then some .badByte
    else if limit < (b :: rest).length then some (.tooLong limit)
    else none

def quoteIdentifier (dialect : Dialect) (role name : Text) : Except IdentifierError Text :=
  match identifierFault? dialect.maxIdentifierLength name with
  | some fault => .error ⟨dialect, role, name, fault⟩
  | none => .ok (enclose dialect.quoteByte name)

def quoteLiteral (value : Text) : Text := enclose (byte '\'') value

def isUnsignedInteger (value : Text) : Bool := !value.isEmpty && value.all Byte.isDigit

def isNumericLiteral (value : Text) : Bool :=
  let unsigned := match value with
    | b :: rest => if b == byte '-' then rest else value
    | [] => value
  match unsigned.takeWhile Byte.isDigit, unsigned.dropWhile Byte.isDigit with
  | [], _ => false
  | _, [] => true
  | _, dot :: fraction => dot == byte '.' && isUnsignedInteger fraction

end SchemaMigration.Sql
