import SchemaMigration.Text

/-!
This module contains the tokens of the schema language, their positions, the reserved words, and
the ways in which a source can fail to be a schema.
-/

namespace SchemaMigration.Schema

inductive ScalarType where
  | serial | int | bigInt | smallInt | varChar | char | text | boolean | timestamp | date | time
  | decimal | numeric | real | doublePrecision | json | jsonb | uuid | enumeration
  deriving DecidableEq, Repr

namespace ScalarType

def all : List ScalarType :=
  [.serial, .int, .bigInt, .smallInt, .varChar, .char, .text, .boolean, .timestamp, .date, .time,
    .decimal, .numeric, .real, .doublePrecision, .json, .jsonb, .uuid, .enumeration]

def name : ScalarType → Text
  | serial => ascii "Serial"
  | int => ascii "Int"
  | bigInt => ascii "BigInt"
  | smallInt => ascii "SmallInt"
  | varChar => ascii "VarChar"
  | char => ascii "Char"
  | text => ascii "Text"
  | boolean => ascii "Boolean"
  | timestamp => ascii "Timestamp"
  | date => ascii "Date"
  | time => ascii "Time"
  | decimal => ascii "Decimal"
  | numeric => ascii "Numeric"
  | real => ascii "Real"
  | doublePrecision => ascii "DoublePrecision"
  | json => ascii "Json"
  | jsonb => ascii "Jsonb"
  | uuid => ascii "Uuid"
  | enumeration => ascii "Enum"

/-- The scalar type that a word denotes; the spelling must be exact. -/
def ofName? (word : Text) : Option ScalarType := all.find? (·.name == word)

end ScalarType

def isModelKeyword (word : Text) : Bool := word.lower == ascii "model"

def isScalarType (word : Text) : Bool := (ScalarType.ofName? word).isSome

def isReservedWord (word : Text) : Bool := isModelKeyword word || isScalarType word

/-- A place in a source: line and column, both counted from one, the column in bytes. -/
structure Position where
  line : Int
  column : Int
  deriving DecidableEq, Repr

namespace Position

def start : Position := ⟨1, 1⟩

/-- The place behind a byte: a line feed starts a line, any other byte takes one column. -/
def advance (p : Position) (b : UInt8) : Position :=
  if b == byte '\n' then ⟨p.line + 1, 1⟩ else ⟨p.line, p.column + 1⟩

end Position

inductive TokenKind where
  | model | identifier | type | decorator | leftParen | rightParen | leftBrace | rightBrace
  | comma | dot | string | number | rawSql | endOfInput
  deriving DecidableEq, Repr

def TokenKind.name : TokenKind → Text
  | model => ascii "MODEL"
  | identifier => ascii "IDENTIFIER"
  | type => ascii "TYPE"
  | decorator => ascii "DECORATOR"
  | leftParen => ascii "LPAREN"
  | rightParen => ascii "RPAREN"
  | leftBrace => ascii "LBRACE"
  | rightBrace => ascii "RBRACE"
  | comma => ascii "COMMA"
  | dot => ascii "DOT"
  | string => ascii "STRING"
  | number => ascii "NUMBER"
  | rawSql => ascii "RAW_SQL"
  | endOfInput => ascii "EOF"

/-- A token: its kind, its text (decoded or trimmed where the kind asks for it) and its place. -/
structure Token where
  kind : TokenKind
  text : Text
  position : Position
  deriving DecidableEq, Repr

inductive Expectation where
  | modelName | openBrace | closeBrace | columnName | columnType | closeTypeArguments
  | referencedColumn | closeDecoratorArguments
  deriving DecidableEq, Repr

def Expectation.message : Expectation → Text
  | modelName => ascii "Expected model name"
  | openBrace => ascii "Expected \"\x7b\" after model name"
  | closeBrace => ascii "Expected \"\x7d\" to close model block"
  | columnName => ascii "Expected column name"
  | columnType => ascii "Expected column type"
  | closeTypeArguments => ascii "Expected \")\" after type arguments"
  | referencedColumn => ascii "Expected column name after \".\" in reference"
  | closeDecoratorArguments => ascii "Expected \")\" after decorator arguments"

inductive Fault where
  | unexpectedByte (b : UInt8)
  | missingDecoratorName
  | unterminatedString
  | unexpectedToken (text : Text) (kind : TokenKind)
  | expected (what : Expectation)
  | expectedTypeArgument (found : TokenKind)
  | expectedDecoratorArgument (found : TokenKind)
  | modelWithoutColumns (model : Text)
  | duplicateDecorator (decorator column : Text)
  | duplicateModel (model : Text)
  deriving DecidableEq, Repr

def Fault.message : Fault → Text
  | unexpectedByte b => ascii "Unexpected character: " ++ [b]
  | missingDecoratorName => ascii "Expected decorator name after @"
  | unterminatedString => ascii "Unterminated string"
  | unexpectedToken text kind =>
    ascii "Unexpected token: " ++ text ++ ascii " (" ++ kind.name ++ ascii ")"
  | expected what => what.message
  | expectedTypeArgument found => ascii "Expected argument value, got " ++ found.name
  | expectedDecoratorArgument found => ascii "Expected decorator argument, got " ++ found.name
  | modelWithoutColumns model =>
    ascii "Model " ++ model.inQuotes ++ ascii " must have at least one column"
  | duplicateDecorator decorator column =>
    ascii "Duplicate decorator @" ++ decorator ++ ascii " on column " ++ column.inQuotes
  | duplicateModel model =>
    ascii "Duplicate model " ++ model.inQuotes ++ ascii "; model names must be unique within a file"

structure ParseError where
  fault : Fault
  position : Position
  deriving DecidableEq, Repr

def ParseError.message (e : ParseError) : Text :=
  ascii "Parse error at line " ++ Text.ofInt e.position.line ++ ascii ", column " ++
    Text.ofInt e.position.column ++ ascii ": " ++ e.fault.message

end SchemaMigration.Schema
