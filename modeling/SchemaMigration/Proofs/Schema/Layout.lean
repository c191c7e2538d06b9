import SchemaMigration.Proofs.Schema.WellFormed

/-!
This module contains the lexical grammar: what may stand between lexemes, which bytes are a lexeme
of each kind, and how a source is laid out as gaps and lexemes. How a source is read is not said.
-/

namespace SchemaMigration.Schema

def IsBlank (b : UInt8) : Prop := b = byte ' ' ∨ b = byte '\t' ∨ b = byte '\r'

def IsSeparator (b : UInt8) : Prop := IsBlank b ∨ b = byte '\n'

def EndsLine (rest : Text) : Prop := rest.Stops (· != byte '\n')

inductive Gap (rest : Text) : Text → Prop
  | nil : Gap rest []
  | separator {b : UInt8} {gap : Text} (hb : IsSeparator b) (h : Gap rest gap) : Gap rest (b :: gap)
  | comment {body gap : Text} (hbody : byte '\n' ∉ body) (hend : EndsLine (gap ++ rest))
    (h : Gap rest gap) : Gap rest (byte '#' :: (body ++ gap))

/-- The byte behind a backslash, and the byte that the two stand for. -/
inductive Escapes : UInt8 → UInt8 → Prop
  | lineFeed : Escapes (byte 'n') (byte '\n')
  | tab : Escapes (byte 't') (byte '\t')
  | carriageReturn : Escapes (byte 'r') (byte '\r')
  | itself {b : UInt8} (hn : b ≠ byte 'n') (ht : b ≠ byte 't') (hr : b ≠ byte 'r') : Escapes b b

inductive Quotes (quote : UInt8) : Text → Text → Prop
  | nil : Quotes quote [] []
  | plain {b : UInt8} {source value : Text} (hquote : b ≠ quote) (hslash : b ≠ byte '\\')
    (h : Quotes quote source value) : Quotes quote (b :: source) (b :: value)
  | escaped {e b : UInt8} {source value : Text} (he : Escapes e b)
    (h : Quotes quote source value) : Quotes quote (byte '\\' :: e :: source) (b :: value)

structure Trims (line text : Text) : Prop where
  split : ∃ front back, line = front ++ text ++ back ∧ (∀ b ∈ front, Byte.isSpace b = true) ∧
    ∀ b ∈ back, Byte.isSpace b = true
  head : ∀ b ∈ text.head?, Byte.isSpace b = false
  last : ∀ b ∈ text.getLast?, Byte.isSpace b = false

def AtLineStart (before : Text) : Prop :=
  ∃ earlier blanks, before = earlier ++ blanks ∧ (∀ b ∈ blanks, IsBlank b) ∧
    ∀ b ∈ earlier.getLast?, b = byte '\n'

def punctuationMarks : List (UInt8 × TokenKind) :=
  [(byte '(', .leftParen), (byte ')', .rightParen), (byte '{', .leftBrace),
    (byte '}', .rightBrace), (byte ',', .comma), (byte '.', .dot)]

def IsDigits (t : Text) : Prop := t ≠ [] ∧ ∀ b ∈ t, Byte.isDigit b = true

def BeginsFraction (rest : Text) : Prop :=
  ∃ d after, rest = byte '.' :: d :: after ∧ Byte.isDigit d = true

/--
The kind and the text of a token, and the bytes of its lexeme. What stands before and behind the
lexeme matters, since words and numbers go on as far as they can and raw SQL takes a line.
-/
inductive Spells (before after : Text) : TokenKind → Text → Text → Prop
  | punctuation {b : UInt8} {kind : TokenKind} (h : (b, kind) ∈ punctuationMarks) :
    Spells before after kind [b] [b]
  | decorator {name : Text} (hname : IsDecoratorName name) (hstop : after.Stops Byte.isWordPart) :
    Spells before after .decorator name (byte '@' :: name)
  | model {word : Text} (hword : IsWord word) (hmodel : word.lower = ascii "model")
    (hstop : after.Stops Byte.isWordPart) : Spells before after .model word word
  | type (type : ScalarType) (hstop : after.Stops Byte.isWordPart) :
    Spells before after .type type.name type.name
  | identifier {word : Text} (hname : IsName word) (hstop : after.Stops Byte.isWordPart) :
    Spells before after .identifier word word
  | integer {digits : Text} (hdigits : IsDigits digits) (hstop : after.Stops Byte.isDigit)
    (hwhole : ¬ BeginsFraction after) : Spells before after .number digits digits
  | fraction {whole places : Text} (hwhole : IsDigits whole) (hplaces : IsDigits places)
    (hstop : after.Stops Byte.isDigit) :
    Spells before after .number (whole ++ byte '.' :: places) (whole ++ byte '.' :: places)
  | string {quote : UInt8} {source value : Text} (hquote : quote = byte '\'' ∨ quote = byte '"')
    (h : Quotes quote source value) :
    Spells before after .string value (quote :: (source ++ [quote]))
  | rawSql {line text : Text} (hstart : AtLineStart before) (hline : byte '\n' ∉ line)
    (hend : EndsLine after) (htext : Trims line text) :
    Spells before after .rawSql text (byte '>' :: line)

def placeBehind (before : Text) : Position :=
  ⟨1 + before.count (byte '\n'), 1 + (before.reverse.takeWhile (· != byte '\n')).length⟩

/-- A source laid out as gaps and lexemes, each lexeme with the token it gives. -/
inductive Layout where
  | finish (gap : Text)
  | lexeme (gap : Text) (kind : TokenKind) (text source : Text) (rest : Layout)
  deriving DecidableEq

namespace Layout

def source : Layout → Text
  | finish gap => gap
  | lexeme gap _ _ source rest => gap ++ (source ++ rest.source)

def IsValid (before : Text) : Layout → Prop
  | finish gap => Gap [] gap
  | lexeme gap kind text source rest =>
    Gap (source ++ rest.source) gap ∧ Spells (before ++ gap) rest.source kind text source ∧
      rest.IsValid (before ++ gap ++ source)

def tokens (before : Text) : Layout → List Token
  | finish gap => [⟨.endOfInput, [], placeBehind (before ++ gap)⟩]
  | lexeme gap kind text source rest =>
    ⟨kind, text, placeBehind (before ++ gap)⟩ :: rest.tokens (before ++ gap ++ source)

end Layout

end SchemaMigration.Schema
