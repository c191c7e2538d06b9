import SchemaMigration.Schema.Token

/-!
This module contains the lexer. A source is cut from left to right into pieces, each either a gap
(a blank or a comment) or a lexeme; the lexemes become the tokens.
-/

namespace SchemaMigration.Schema

/--
Where the lexer stands: the place of the next byte, and whether only blanks stand before it on its
line.
-/
structure Cursor where
  position : Position
  lineStart : Bool
  deriving DecidableEq, Repr

namespace Cursor

def start : Cursor := ⟨.start, true⟩

def isBlank (b : UInt8) : Bool := b == byte ' ' || b == byte '\t' || b == byte '\r'

def advance (c : Cursor) (b : UInt8) : Cursor :=
  ⟨c.position.advance b, b == byte '\n' || (c.lineStart && isBlank b)⟩

def after (c : Cursor) (t : Text) : Cursor := t.foldl advance c

end Cursor

/--
The first piece of a source: the token it gives, if it is a lexeme, the bytes it covers, and the
rest of the source.
-/
structure Piece where
  token? : Option (TokenKind × Text)
  source : Text
  rest : Text
  deriving DecidableEq, Repr

namespace Piece

def gap (source rest : Text) : Piece := ⟨none, source, rest⟩

def lexeme (kind : TokenKind) (text source rest : Text) : Piece :=
  ⟨some (kind, text), source, rest⟩

def punctuation? (b : UInt8) : Option TokenKind :=
  if b == byte '(' then some .leftParen
  else if b == byte ')' then some .rightParen
  else if b == byte '{' then some .leftBrace
  else if b == byte '}' then some .rightBrace
  else if b == byte ',' then some .comma
  else if b == byte '.' then some .dot
  else none

def unescape (b : UInt8) : UInt8 :=
  if b == byte 'n' then byte '\n'
  else if b == byte 't' then byte '\t'
  else if b == byte 'r' then byte '\r'
  else b

/--
Reads a string behind its opening quote: its value, the bytes up to and including the first
matching quote that is not escaped, and the rest. There is none if that quote is missing.
-/
def stringBody? (quote : UInt8) : Text → Option (Text × Text × Text)
  | [] => none
  | b :: rest =>
    if b == quote then
      some ([], [b], rest)
    else if b == byte '\\' then
      match rest with
      | [] => none
      | e :: rest =>
        match stringBody? quote rest with
        | none => none
        | some (value, source, rest) => some (unescape e :: value, b :: e :: source, rest)
    else
      match stringBody? quote rest with
      | none => none
      | some (value, source, rest) => some (b :: value, b :: source, rest)

def wordKind (word : Text) : TokenKind :=
  if isModelKeyword word then .model
  else if isScalarType word then .type
  else .identifier

/--
The digits of a number behind its first one: a run of digits, and a dot with a second run if a
digit follows the dot.
-/
def numberTail (rest : Text) : Text :=
  match rest.dropWhile Byte.isDigit with
  | dot :: d :: after =>
    if dot == byte '.' && Byte.isDigit d then
      rest.takeWhile Byte.isDigit ++ dot :: d :: after.takeWhile Byte.isDigit
    else
      rest.takeWhile Byte.isDigit
  | _ => rest.takeWhile Byte.isDigit

/--
The first piece of the source that consists of a byte and the bytes behind it. A `>` opens raw SQL
only at the start of a line.
-/
def first (lineStart : Bool) (b : UInt8) (rest : Text) : Except Fault Piece :=
  if b == byte ' ' || b == byte '\t' || b == byte '\r' || b == byte '\n' then
    .ok (gap [b] rest)
  else if b == byte '#' then
    .ok (gap (b :: rest.takeWhile (· != byte '\n')) (rest.dropWhile (· != byte '\n')))
  else if b == byte '@' then
    match rest.takeWhile Byte.isWordPart with
    | [] => .error .missingDecoratorName
    | name => .ok (lexeme .decorator name (b :: name) (rest.dropWhile Byte.isWordPart))
  else if b == byte '\'' || b == byte '"' then
    match stringBody? b rest with
    | none => .error .unterminatedString
    | some (value, source, rest) => .ok (lexeme .string value (b :: source) rest)
  else
    match punctuation? b with
    | some kind => .ok (lexeme kind [b] [b] rest)
    | none =>
      if b == byte '>' && lineStart then
        let line := rest.takeWhile (· != byte '\n')
        .ok (lexeme .rawSql (Text.trim line) (b :: line) (rest.dropWhile (· != byte '\n')))
      else if Byte.isWordStart b then
        let word := b :: rest.takeWhile Byte.isWordPart
        .ok (lexeme (wordKind word) word word (rest.dropWhile Byte.isWordPart))
      else if Byte.isDigit b then
        let number := b :: numberTail rest
        .ok (lexeme .number number number (rest.drop (numberTail rest).length))
      else
        .error (.unexpectedByte b)

end Piece

/--
The tokens of a source, the end of input included. A fault is reported at the first byte of the
piece that has it.
-/
def tokenize (source : Text) : Except ParseError (List Token) :=
  go source.length .start source
where
  /-- The tokens of the source that begins at a cursor; the number bounds the count of pieces. -/
  go : Nat → Cursor → Text → Except ParseError (List Token)
    | fuel + 1, cursor, b :: rest =>
      match Piece.first cursor.lineStart b rest with
      | .error fault => .error ⟨fault, cursor.position⟩
      | .ok piece =>
        match piece.token? with
        | none => go fuel (cursor.after piece.source) piece.rest
        | some (kind, text) =>
          match go fuel (cursor.after piece.source) piece.rest with
          | .error e => .error e
          | .ok tokens => .ok (⟨kind, text, cursor.position⟩ :: tokens)
    | _, cursor, _ => .ok [⟨.endOfInput, [], cursor.position⟩]

end SchemaMigration.Schema
