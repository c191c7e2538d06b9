import SchemaMigration.Proofs.Basic
import SchemaMigration.Schema.Token
import SchemaMigration.Sql.Statement

/-!
This module contains column types apart from the dialects: a scalar type together with arguments
that it admits. The tables of the dialects agree on them. Every dialect writes the same types, each
in its own way, and refuses all others for the same reason.
-/

namespace SchemaMigration.Sql

open Schema (Column Model ScalarType)

inductive PlainType where
  | serial | int | bigInt | smallInt | text | boolean | timestamp | date | time | real
  | doublePrecision | json | jsonb | uuid
  deriving DecidableEq, Repr

/-- A scalar type with its arguments. Lengths, precisions and scales are numerals. -/
inductive ColumnType where
  | varChar (length? : Option Text)
  | char (length? : Option Text)
  | decimal
  | decimalPrecision (precision : Text)
  | decimalScale (precision scale : Text)
  | enumeration (first : Text) (others : List Text)
  | plain (type : PlainType)
  deriving DecidableEq, Repr

namespace ColumnType

def members : ColumnType → List Text
  | enumeration first others => first :: others
  | _ => []

def decimalOf (c : Column) : Except ColumnFault ColumnType :=
  if 2 < c.typeArgs.length then
    .error (.precisionCount c.type c.typeArgs.length)
  else
    match c.typeArgs.find? (!isUnsignedInteger ·) with
    | some arg => .error (.badPrecision c.type arg)
    | none =>
      match c.typeArgs with
      | precision :: scale :: _ => .ok (decimalScale precision scale)
      | [precision] => .ok (decimalPrecision precision)
      | [] => .ok decimal

def enumerationOf (c : Column) : Except ColumnFault ColumnType :=
  match c.typeArgs with
  | [] => .error .enumerationWithoutMembers
  | first :: others => .ok (enumeration first others)

def plainOf (c : Column) (type? : Option PlainType) : Except ColumnFault ColumnType :=
  if c.typeArgs.isEmpty then
    match type? with
    | some type => .ok (plain type)
    | none => .error (.unknownType c.type)
  else
    .error (.unexpectedTypeArguments c.type)

def ofColumn (c : Column) : Except ColumnFault ColumnType :=
  match ScalarType.ofName? c.type with
  | some .varChar => (lengthArgument? c).map varChar
  | some .char => (lengthArgument? c).map char
  | some .decimal | some .numeric => decimalOf c
  | some .enumeration => enumerationOf c
  | some .serial => plainOf c (some .serial)
  | some .int => plainOf c (some .int)
  | some .bigInt => plainOf c (some .bigInt)
  | some .smallInt => plainOf c (some .smallInt)
  | some .text => plainOf c (some .text)
  | some .boolean => plainOf c (some .boolean)
  | some .timestamp => plainOf c (some .timestamp)
  | some .date => plainOf c (some .date)
  | some .time => plainOf c (some .time)
  | some .real => plainOf c (some .real)
  | some .doublePrecision => plainOf c (some .doublePrecision)
  | some .json => plainOf c (some .json)
  | some .jsonb => plainOf c (some .jsonb)
  | some .uuid => plainOf c (some .uuid)
  | none => plainOf c none

/-- A type in PostgreSQL. An enumeration is a text column wide enough for its longest member. -/
def postgres : ColumnType → Text
  | varChar none => ascii "VARCHAR"
  | varChar (some length) => withArgument (ascii "VARCHAR") length
  | char none => ascii "CHAR"
  | char (some length) => withArgument (ascii "CHAR") length
  | decimal => ascii "NUMERIC"
  | decimalPrecision precision => withArgument (ascii "NUMERIC") precision
  | decimalScale precision scale => withArguments (ascii "NUMERIC") precision scale
  | enumeration first others =>
    let width := (first :: others).foldl (fun width m => max width m.length)
      Postgres.minEnumerationWidth
    withArgument (ascii "VARCHAR") (Text.ofNat width)
  | plain .serial => ascii "SERIAL"
  | plain .int => ascii "INTEGER"
  | plain .bigInt => ascii "BIGINT"
  | plain .smallInt => ascii "SMALLINT"
  | plain .text => ascii "TEXT"
  | plain .boolean => ascii "BOOLEAN"
  | plain .timestamp => ascii "TIMESTAMP"
  | plain .date => ascii "DATE"
  | plain .time => ascii "TIME"
  | plain .real => ascii "REAL"
  | plain .doublePrecision => ascii "DOUBLE PRECISION"
  | plain .json => ascii "JSON"
  | plain .jsonb => ascii "JSONB"
  | plain .uuid => ascii "UUID"

/-- A type in MySQL, which always wants a length and has enumerations of its own. -/
def mysql : ColumnType → Text
  | varChar length? => withArgument (ascii "VARCHAR") (length?.getD (ascii "255"))
  | char length? => withArgument (ascii "CHAR") (length?.getD (ascii "1"))
  | decimal => withArguments (ascii "DECIMAL") (ascii "10") (ascii "2")
  | decimalPrecision precision => withArgument (ascii "DECIMAL") precision
  | decimalScale precision scale => withArguments (ascii "DECIMAL") precision scale
  | enumeration first others => withArgument (ascii "ENUM") (literals (first :: others))
  | plain .serial => ascii "INT AUTO_INCREMENT"
  | plain .int => ascii "INT"
  | plain .bigInt => ascii "BIGINT"
  | plain .smallInt => ascii "SMALLINT"
  | plain .text => ascii "TEXT"
  | plain .boolean => ascii "BOOLEAN"
  | plain .timestamp => ascii "TIMESTAMP"
  | plain .date => ascii "DATE"
  | plain .time => ascii "TIME"
  | plain .real => ascii "FLOAT"
  | plain .doublePrecision => ascii "DOUBLE"
  | plain .json | plain .jsonb => ascii "JSON"
  | plain .uuid => ascii "CHAR(36)"

/-- A type in SQLite, which has three storage classes and ignores lengths and precisions. -/
def sqlite : ColumnType → Text
  | varChar _ | char _ | enumeration _ _ => ascii "TEXT"
  | decimal | decimalPrecision _ | decimalScale _ _ => ascii "REAL"
  | plain .serial | plain .int | plain .bigInt | plain .smallInt | plain .boolean =>
    ascii "INTEGER"
  | plain .text | plain .timestamp | plain .date | plain .time | plain .json | plain .jsonb
  | plain .uuid => ascii "TEXT"
  | plain .real | plain .doublePrecision => ascii "REAL"

def render (dialect : Dialect) (type : ColumnType) : Text :=
  match dialect with
  | .postgres => type.postgres
  | .mysql => type.mysql
  | .sqlite => type.sqlite

def check (dialect : Dialect) (column : Text) (type : ColumnType) : Text :=
  match dialect, type with
  | .mysql, _ => []
  | _, enumeration first others =>
    ascii " CHECK (" ++ column ++ ascii " IN (" ++ literals (first :: others) ++ ascii "))"
  | _, _ => []

variable {c : Column}

theorem name_of_ofName? {word : Text} {type : ScalarType}
    (h : ScalarType.ofName? word = some type) : word = type.name := by
  have hname := List.find?_some h
  exact (beq_iff_eq.mp hname).symm

theorem ofName?_name (type : ScalarType) : ScalarType.ofName? type.name = some type := by
  cases type <;> decide

/-- A word that denotes no scalar type is not one of some that do. -/
theorem not_hasType (h : ScalarType.ofName? c.type = none) {names : List String}
    (hnames : names.all fun name => (ScalarType.ofName? (ascii name)).isSome) :
    ¬ hasType c names = true := by
  intro hany
  obtain ⟨name, hname, heq⟩ := List.any_eq_true.mp hany
  have hsome := List.all_eq_true.mp hnames name hname
  rw [beq_iff_eq.mp heq, h] at hsome
  cases hsome

theorem hasType_of_ofName? {type : ScalarType} (h : ScalarType.ofName? c.type = some type)
    (names : List String) : hasType c names = names.any (ascii · == type.name) := by
  rw [hasType, name_of_ofName? h]

section Agreement

variable {table : List (List String × String)} {write : ColumnType → Text}

/-- A table that has a word for a type writes it, if there are no arguments. -/
theorem plain_eq {type : PlainType} (h : plainType table c = .ok (write (plain type))) :
    (do noTypeArguments c; plainType table c) = (plainOf c (some type)).map write := by
  unfold noTypeArguments plainOf
  split
  . exact h
  . rfl

/-- A table of scalar types has no word for another type. -/
theorem unknown_eq (h : ScalarType.ofName? c.type = none)
    (htable : table.all fun row => row.1.all fun name =>
      (ScalarType.ofName? (ascii name)).isSome) :
    (do noTypeArguments c; plainType table c) = (plainOf c none).map write := by
  have hnone : table.find? (fun row => hasType c row.1) = none := by
    apply List.find?_eq_none.mpr
    exact fun row hrow => not_hasType h (List.all_eq_true.mp htable row hrow)
  unfold noTypeArguments plainOf plainType
  rw [hnone]
  split
  . rfl
  . rfl

theorem length_eq {f : Option Text → Except ColumnFault Text} {type : Option Text → ColumnType}
    (h : ∀ length?, f length? = .ok (write (type length?))) :
    lengthArgument? c >>= f = ((lengthArgument? c).map type).map write := by
  cases lengthArgument? c with
  | error e => rfl
  | ok length? => exact h length?

theorem decimal_eq {f : List Text → Except ColumnFault Text} (hnone : f [] = .ok (write decimal))
    (hprecision : ∀ precision, f [precision] = .ok (write (decimalPrecision precision)))
    (hscale : ∀ precision scale,
      f [precision, scale] = .ok (write (decimalScale precision scale))) :
    precisionArguments c >>= f = (decimalOf c).map write := by
  unfold precisionArguments decimalOf
  split
  . rfl
  . next hlength =>
    cases c.typeArgs.find? (!isUnsignedInteger ·) with
    | some arg => rfl
    | none =>
      match hargs : c.typeArgs with
      | [] => exact hnone
      | [precision] => exact hprecision precision
      | [precision, scale] => exact hscale precision scale
      | _ :: _ :: _ :: _ =>
        rw [hargs] at hlength
        simp at hlength

theorem enumeration_eq {f : List Text → Except ColumnFault Text}
    (h : ∀ first others, f (first :: others) = .ok (write (enumeration first others))) :
    enumerationMembers c >>= f = (enumerationOf c).map write := by
  unfold enumerationMembers enumerationOf
  cases c.typeArgs with
  | nil => rfl
  | cons first others => exact h first others

end Agreement

theorem postgres_eq (c : Column) : Postgres.columnType c = (ofColumn c).map postgres := by
  unfold ofColumn
  cases htype : ScalarType.ofName? c.type with
  | none =>
    rw [Postgres.columnType, if_neg (not_hasType htype (by decide)),
      if_neg (not_hasType htype (by decide)), if_neg (not_hasType htype (by decide))]
    exact unknown_eq htype (by decide)
  | some type =>
    have hhas := hasType_of_ofName? htype
    rw [Postgres.columnType, hhas, hhas, hhas, hhas]
    cases type with
    | varChar =>
      rw [if_pos (by decide), if_pos (by decide)]
      exact length_eq fun length? => by cases length? <;> rfl
    | char =>
      rw [if_pos (by decide), if_neg (by decide)]
      exact length_eq fun length? => by cases length? <;> rfl
    | decimal | numeric =>
      rw [if_neg (by decide), if_pos (by decide)]
      exact decimal_eq rfl (fun _ => rfl) fun _ _ => rfl
    | enumeration =>
      rw [if_neg (by decide), if_neg (by decide), if_pos (by decide)]
      exact enumeration_eq fun _ _ => rfl
    | _ =>
      rw [if_neg (by decide), if_neg (by decide), if_neg (by decide)]
      exact plain_eq (by simp only [plainType, hhas]; rfl)

theorem mysql_eq (c : Column) : Mysql.columnType c = (ofColumn c).map mysql := by
  unfold ofColumn
  cases htype : ScalarType.ofName? c.type with
  | none =>
    rw [Mysql.columnType, if_neg (not_hasType htype (by decide)),
      if_neg (not_hasType htype (by decide)), if_neg (not_hasType htype (by decide)),
      if_neg (not_hasType htype (by decide))]
    exact unknown_eq htype (by decide)
  | some type =>
    have hhas := hasType_of_ofName? htype
    rw [Mysql.columnType, hhas, hhas, hhas, hhas]
    cases type with
    | varChar =>
      rw [if_pos (by decide)]
      exact length_eq fun _ => rfl
    | char =>
      rw [if_neg (by decide), if_pos (by decide)]
      exact length_eq fun _ => rfl
    | decimal | numeric =>
      rw [if_neg (by decide), if_neg (by decide), if_pos (by decide)]
      exact decimal_eq rfl (fun _ => rfl) fun _ _ => rfl
    | enumeration =>
      rw [if_neg (by decide), if_neg (by decide), if_neg (by decide), if_pos (by decide)]
      exact enumeration_eq fun _ _ => rfl
    | _ =>
      rw [if_neg (by decide), if_neg (by decide), if_neg (by decide), if_neg (by decide)]
      exact plain_eq (by simp only [plainType, hhas]; rfl)

theorem sqlite_eq (c : Column) : Sqlite.columnType c = (ofColumn c).map sqlite := by
  unfold ofColumn
  cases htype : ScalarType.ofName? c.type with
  | none =>
    rw [Sqlite.columnType, if_neg (not_hasType htype (by decide)),
      if_neg (not_hasType htype (by decide)), if_neg (not_hasType htype (by decide))]
    exact unknown_eq htype (by decide)
  | some type =>
    have hhas := hasType_of_ofName? htype
    rw [Sqlite.columnType, hhas, hhas, hhas]
    cases type with
    | varChar | char =>
      rw [if_pos (by decide)]
      exact length_eq fun _ => rfl
    | decimal | numeric =>
      rw [if_neg (by decide), if_pos (by decide)]
      exact decimal_eq rfl (fun _ => rfl) fun _ _ => rfl
    | enumeration =>
      rw [if_neg (by decide), if_neg (by decide), if_pos (by decide)]
      exact enumeration_eq fun _ _ => rfl
    | _ =>
      rw [if_neg (by decide), if_neg (by decide), if_neg (by decide)]
      exact plain_eq (by simp only [plainType, hhas]; rfl)

/-- The tables of all dialects have the same types and demand the same of their arguments. -/
theorem columnType_eq (dialect : Dialect) (c : Column) :
    columnType dialect c = (ofColumn c).map (render dialect) := by
  cases dialect with
  | postgres => exact postgres_eq c
  | mysql => exact mysql_eq c
  | sqlite => exact sqlite_eq c

end ColumnType

end SchemaMigration.Sql
