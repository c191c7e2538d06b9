import SchemaMigration.Schema.Lexer
import SchemaMigration.Schema.Tree

/-!
This module contains the parser: from the tokens of a source to its schema tree. The grammar is

    schema    = (model | RAW_SQL)*
    model     = MODEL IDENTIFIER LBRACE column+ RBRACE
    column    = IDENTIFIER TYPE [LPAREN [value (COMMA value)*] RPAREN] decorator*
    decorator = DECORATOR [LPAREN [argument (COMMA argument)*] RPAREN]
    value     = STRING | NUMBER | IDENTIFIER
    argument  = STRING | NUMBER | IDENTIFIER | IDENTIFIER DOT IDENTIFIER

and in addition decorators are distinct within a column and models within a schema. The parser of a
part of the grammar gives that part and the tokens behind it.
-/

namespace SchemaMigration.Schema

namespace Parser

/--
The token at the front. Behind the last token stands the end of input, whose place is `finish`.
-/
def peek (finish : Position) : List Token → Token
  | [] => ⟨.endOfInput, [], finish⟩
  | t :: _ => t

def failAt {α : Type} (finish : Position) (tokens : List Token) (fault : Fault) :
    Except ParseError (α × List Token) :=
  .error ⟨fault, (peek finish tokens).position⟩

def expect (finish : Position) (kind : TokenKind) (what : Expectation) (tokens : List Token) :
    Except ParseError (Token × List Token) :=
  if (peek finish tokens).kind = kind then
    .ok (peek finish tokens, tokens.tail)
  else
    failAt finish tokens (.expected what)

def typeArgument (finish : Position) (tokens : List Token) :
    Except ParseError (Text × List Token) :=
  match (peek finish tokens).kind with
  | .string | .number | .identifier => .ok ((peek finish tokens).text, tokens.tail)
  | kind => failAt finish tokens (.expectedTypeArgument kind)

def decoratorArgument (finish : Position) (tokens : List Token) :
    Except ParseError (Text × List Token) :=
  match (peek finish tokens).kind with
  | .string | .number => .ok ((peek finish tokens).text, tokens.tail)
  | .identifier =>
    if (peek finish tokens.tail).kind = .dot then do
      let (column, rest) ← expect finish .identifier .referencedColumn tokens.tail.tail
      return ((peek finish tokens).text ++ byte '.' :: column.text, rest)
    else
      .ok ((peek finish tokens).text, tokens.tail)
  | kind => failAt finish tokens (.expectedDecoratorArgument kind)

/--
Reads one or more arguments separated by commas, and the closing parenthesis. The number bounds the
count of arguments.
-/
def arguments (finish : Position)
    (argument : List Token → Except ParseError (Text × List Token)) (close : Expectation) :
    Nat → List Token → Except ParseError (List Text × List Token)
  | 0, tokens => failAt finish tokens (.expected close)
  | fuel + 1, tokens => do
    let (arg, rest) ← argument tokens
    if (peek finish rest).kind = .comma then
      let (args, rest) ← arguments finish argument close fuel rest.tail
      return (arg :: args, rest)
    else
      let (_, rest) ← expect finish .rightParen close rest
      return ([arg], rest)

def optionalArguments (finish : Position)
    (argument : List Token → Except ParseError (Text × List Token)) (close : Expectation)
    (tokens : List Token) : Except ParseError (Option (List Text) × List Token) :=
  if (peek finish tokens).kind = .leftParen then
    if (peek finish tokens.tail).kind = .rightParen then
      .ok (some [], tokens.tail.tail)
    else do
      let (args, rest) ← arguments finish argument close (tokens.length + 1) tokens.tail
      return (some args, rest)
  else
    .ok (none, tokens)

/--
Reads decorators as long as there are any, refusing names that were seen before on the same column.
The first number bounds their count.
-/
def decorators (finish : Position) (column : Text) :
    Nat → List Text → List Token → Except ParseError (List Decorator × List Token)
  | 0, _, tokens => .ok ([], tokens)
  | fuel + 1, seen, tokens =>
    if (peek finish tokens).kind = .decorator then do
      let name := (peek finish tokens).text
      let (args?, rest) ←
        optionalArguments finish (decoratorArgument finish) .closeDecoratorArguments tokens.tail
      if seen.contains name then
        failAt finish tokens (.duplicateDecorator name column)
      else
        let (more, rest) ← decorators finish column fuel (name :: seen) rest
        return (⟨name, .ofOption args?⟩ :: more, rest)
    else
      .ok ([], tokens)

def column (finish : Position) (tokens : List Token) :
    Except ParseError (Column × List Token) := do
  let (name, rest) ← expect finish .identifier .columnName tokens
  let (type, rest) ← expect finish .type .columnType rest
  let (typeArgs?, rest) ← optionalArguments finish (typeArgument finish) .closeTypeArguments rest
  let (decorators, rest) ← decorators finish name.text rest.length [] rest
  return (⟨name.text, type.text, .ofOption typeArgs?, decorators⟩, rest)

/--
Reads columns up to a closing brace or the end of input. The number bounds their count.
-/
def columns (finish : Position) :
    Nat → List Token → Except ParseError (List Column × List Token)
  | 0, tokens => .ok ([], tokens)
  | fuel + 1, tokens =>
    match (peek finish tokens).kind with
    | .rightBrace | .endOfInput => .ok ([], tokens)
    | _ => do
      let (first, rest) ← column finish tokens
      let (more, rest) ← columns finish fuel rest
      return (first :: more, rest)

def model (finish : Position) (tokens : List Token) : Except ParseError (Model × List Token) := do
  let (name, rest) ← expect finish .identifier .modelName tokens
  let (_, rest) ← expect finish .leftBrace .openBrace rest
  let (columns, rest) ← columns finish rest.length rest
  if columns.isEmpty then
    .error ⟨.modelWithoutColumns name.text, name.position⟩
  else
    let (_, rest) ← expect finish .rightBrace .closeBrace rest
    return (⟨name.text, columns⟩, rest)

/--
Reads models and raw SQL up to the end of input, refusing models whose names were seen before. The
first number bounds their count.
-/
def items (finish : Position) : Nat → List Text → List Token → Except ParseError Schema
  | 0, _, _ => .ok ⟨[], []⟩
  | fuel + 1, seen, tokens =>
    match (peek finish tokens).kind with
    | .endOfInput => .ok ⟨[], []⟩
    | .model => do
      let (first, rest) ← model finish tokens.tail
      if seen.contains first.name then
        .error ⟨.duplicateModel first.name, (peek finish tokens).position⟩
      else
        let schema ← items finish fuel (first.name :: seen) rest
        return { schema with models := first :: schema.models }
    | .rawSql => do
      let schema ← items finish fuel seen tokens.tail
      return { schema with rawSql := (peek finish tokens).text :: schema.rawSql }
    | kind =>
      .error ⟨.unexpectedToken (peek finish tokens).text kind, (peek finish tokens).position⟩

end Parser

def bodyTokens (tokens : List Token) : List Token := tokens.takeWhile (·.kind != .endOfInput)

/--
The place of the end of input: that of the first such token; without one that of the last token;
without any token the beginning.
-/
def endPosition (tokens : List Token) : Position :=
  match tokens.find? (·.kind == .endOfInput) with
  | some t => t.position
  | none =>
    match tokens.getLast? with
    | some t => t.position
    | none => .start

/-- The schema of a list of tokens. What stands behind the first end of input does not matter. -/
def ofTokens (tokens : List Token) : Except ParseError Schema :=
  Parser.items (endPosition tokens) (bodyTokens tokens).length [] (bodyTokens tokens)

def parse (source : Text) : Except ParseError Schema := do
  ofTokens (← tokenize source)

end SchemaMigration.Schema
