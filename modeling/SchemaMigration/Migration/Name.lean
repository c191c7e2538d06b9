import SchemaMigration.Failure

/-!
This module contains the names of migrations and of their files.
-/

namespace SchemaMigration.Migration

def fileExtension : Text := ascii ".sigl"

def isAlphanumeric (b : UInt8) : Bool := Byte.isLetter b || Byte.isDigit b

def isNameByte (b : UInt8) : Bool := isAlphanumeric b || b == byte '_' || b == byte '-'

def nameFault? (name : Text) : Option NameFault :=
  match name with
  | [] => some .empty
  | first :: _ =>
    if maxNameLength < name.length then some .tooLong
    else if !name.all isNameByte then some .badByte
    else if !isAlphanumeric first then some .badStart
    else none

def fileByte (b : UInt8) : UInt8 := if b == byte '-' then byte '_' else Byte.toLower b

def fileName (stamp name : Text) : Text :=
  stamp ++ byte '_' :: name.map fileByte ++ fileExtension

def filePath (directory : Path) (stamp name : Text) : Except Failure Path :=
  match nameFault? name with
  | some fault => .error (.badName name fault)
  | none =>
    if (fileName stamp name).contains (byte '/') then .error (.badName name .escapesDirectory)
    else .ok (directory.join (fileName stamp name))

end SchemaMigration.Migration
