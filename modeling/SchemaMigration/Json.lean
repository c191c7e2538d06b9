import SchemaMigration.Utf8

/-!
This module contains JSON documents: a strict reader, a writer, and the readings of a value as a
text or as an integer that the ledger and the lock file use.
-/

namespace SchemaMigration

/-- A JSON document. A number is an integer times a power of ten. -/
inductive Json where
  | null
  | bool (value : Bool)
  | number (mantissa : Int) (exponent : Int)
  | string (value : Text)
  | array (elements : List Json)
  | object (members : List (Text × Json))
  deriving Repr

namespace Json

def isBlank (b : UInt8) : Bool :=
  b == byte ' ' || b == byte '\t' || b == byte '\n' || b == byte '\r'

def skipBlanks (t : Text) : Text := t.dropWhile isBlank

def hexValue? (b : UInt8) : Option Nat :=
  if Byte.isDigit b then some (b.toNat - 48)
  else if byte 'a' ≤ b && b ≤ byte 'f' then some (b.toNat - 87)
  else if byte 'A' ≤ b && b ≤ byte 'F' then some (b.toNat - 55)
  else none

def unit? (a b c d : UInt8) : Option Nat := do
  return 4096 * (← hexValue? a) + 256 * (← hexValue? b) + 16 * (← hexValue? c) + (← hexValue? d)

def escape? (b : UInt8) : Option UInt8 :=
  if b == byte '"' then some (byte '"')
  else if b == byte '\\' then some (byte '\\')
  else if b == byte '/' then some (byte '/')
  else if b == byte 'b' then some 8
  else if b == byte 'f' then some 12
  else if b == byte 'n' then some 10
  else if b == byte 'r' then some 13
  else if b == byte 't' then some 9
  else none

/--
Reads a string behind its opening quote. A code point beyond the basic plane is written as two
units, the second of which must follow the first; control characters must be escaped.
-/
def stringBody? : Text → Option (Text × Text)
  | [] => none
  | b :: rest =>
    if b == byte '"' then
      some ([], rest)
    else if b == byte '\\' then
      match rest with
      | [] => none
      | e :: rest =>
        if e == byte 'u' then
          match rest with
          | h1 :: h2 :: h3 :: h4 :: rest =>
            match unit? h1 h2 h3 h4 with
            | none => none
            | some code =>
              if code < 0xD800 || 0xE000 ≤ code then
                (stringBody? rest).map fun (value, rest) => (Utf8.encode code ++ value, rest)
              else if code < 0xDC00 then
                match rest with
                | s :: u :: l1 :: l2 :: l3 :: l4 :: rest =>
                  if s == byte '\\' && u == byte 'u' then
                    match unit? l1 l2 l3 l4 with
                    | none => none
                    | some low =>
                      if 0xDC00 ≤ low && low < 0xE000 then
                        (stringBody? rest).map fun (value, rest) =>
                          (Utf8.encode (0x10000 + 1024 * (code - 0xD800) + (low - 0xDC00)) ++ value,
                            rest)
                      else
                        none
                  else
                    none
                | _ => none
              else
                none
          | _ => none
        else
          match escape? e with
          | none => none
          | some c => (stringBody? rest).map fun (value, rest) => (c :: value, rest)
    else if b < 0x20 then
      none
    else
      (stringBody? rest).map fun (value, rest) => (b :: value, rest)

def exponent? (t : Text) : Option (Int × Text) :=
  match t with
  | e :: rest =>
    if e == byte 'e' || e == byte 'E' then
      let signed := match rest with
        | s :: digits =>
          if s == byte '-' then (true, digits)
          else if s == byte '+' then (false, digits)
          else (false, rest)
        | [] => (false, [])
      match signed.2.takeWhile Byte.isDigit with
      | [] => none
      | digits =>
        let size : Int := Text.digitsValue digits
        some (if signed.1 then -size else size, signed.2.dropWhile Byte.isDigit)
    else
      some (0, t)
  | [] => some (0, [])

def fraction? (t : Text) : Option (Text × Text) :=
  match t with
  | dot :: rest =>
    if dot == byte '.' then
      match rest.takeWhile Byte.isDigit with
      | [] => none
      | digits => some (digits, rest.dropWhile Byte.isDigit)
    else
      some ([], t)
  | [] => some ([], [])

/-- Reads a number: no leading zeros, and at least one digit on each side of a point. -/
def number? (t : Text) : Option ((Int × Int) × Text) :=
  let (negative, unsigned) := match t with
    | b :: rest => if b == byte '-' then (true, rest) else (false, t)
    | [] => (false, t)
  let whole := unsigned.takeWhile Byte.isDigit
  match whole with
  | [] => none
  | first :: others =>
    if first == byte '0' && !others.isEmpty then
      none
    else do
      let (fraction, rest) ← fraction? (unsigned.dropWhile Byte.isDigit)
      let (exponent, rest) ← exponent? rest
      let size : Int := Text.digitsValue (whole ++ fraction)
      return ((if negative then -size else size, exponent - fraction.length), rest)

def word? (word : Text) (value : Json) (t : Text) : Option (Json × Text) :=
  if word.isPrefixOf t then some (value, t.drop word.length) else none

mutual

/-- Reads a value; the number bounds the depth and length of what is read. -/
def value? : Nat → Text → Option (Json × Text)
  | 0, _ => none
  | fuel + 1, t =>
    match skipBlanks t with
    | [] => none
    | b :: rest =>
      if b == byte '{' then
        match skipBlanks rest with
        | [] => none
        | c :: after =>
          if c == byte '}' then some (.object [], after)
          else (members? fuel (c :: after)).map fun (members, rest) => (.object members, rest)
      else if b == byte '[' then
        match skipBlanks rest with
        | [] => none
        | c :: after =>
          if c == byte ']' then some (.array [], after)
          else (elements? fuel (c :: after)).map fun (elements, rest) => (.array elements, rest)
      else if b == byte '"' then
        (stringBody? rest).map fun (value, rest) => (.string value, rest)
      else if b == byte 't' then word? (ascii "true") (.bool true) (b :: rest)
      else if b == byte 'f' then word? (ascii "false") (.bool false) (b :: rest)
      else if b == byte 'n' then word? (ascii "null") .null (b :: rest)
      else
        (number? (b :: rest)).map fun (n, rest) => (.number n.1 n.2, rest)

def elements? : Nat → Text → Option (List Json × Text)
  | 0, _ => none
  | fuel + 1, t =>
    match value? fuel t with
    | none => none
    | some (element, rest) =>
      match skipBlanks rest with
      | [] => none
      | b :: rest =>
        if b == byte ',' then
          (elements? fuel rest).map fun (elements, rest) => (element :: elements, rest)
        else if b == byte ']' then some ([element], rest)
        else none

def members? : Nat → Text → Option (List (Text × Json) × Text)
  | 0, _ => none
  | fuel + 1, t =>
    match skipBlanks t with
    | [] => none
    | q :: rest =>
      if q == byte '"' then
        match stringBody? rest with
        | none => none
        | some (key, rest) =>
          match skipBlanks rest with
          | [] => none
          | colon :: rest =>
            if colon == byte ':' then
              match value? fuel rest with
              | none => none
              | some (value, rest) =>
                match skipBlanks rest with
                | [] => none
                | b :: rest =>
                  if b == byte ',' then
                    (members? fuel rest).map fun (members, rest) => ((key, value) :: members, rest)
                  else if b == byte '}' then some ([(key, value)], rest)
                  else none
            else
              none
      else
        none

end

/-- The document of a text, if the text is one. A text that is not UTF-8 is refused. -/
def parse? (t : Text) : Option Json :=
  if t.isUtf8 then
    match value? (2 * t.length + 2) t with
    | none => none
    | some (value, rest) => if (skipBlanks rest).isEmpty then some value else none
  else
    none

def escape (b : UInt8) : Text :=
  if b == byte '"' then ascii "\\\""
  else if b == byte '\\' then ascii "\\\\"
  else if b < 0x20 then ascii "\\u00" ++ Text.hexByte b
  else [b]

def quote (t : Text) : Text := Text.inQuotes (t.flatMap escape)

def line (depth : Nat) : Text := byte '\n' :: List.replicate depth (byte ' ')

mutual

def renderAt (depth : Nat) : Json → Text
  | null => ascii "null"
  | bool true => ascii "true"
  | bool false => ascii "false"
  | number mantissa exponent =>
    if exponent = 0 then Text.ofInt mantissa
    else Text.ofInt mantissa ++ byte 'e' :: Text.ofInt exponent
  | string value => quote value
  | array [] => ascii "[]"
  | array (element :: elements) =>
    byte '[' :: renderElements (depth + 1) (element :: elements) ++ line depth ++ [byte ']']
  | object [] => ascii "\x7b\x7d"
  | object (member :: members) =>
    byte '{' :: renderMembers (depth + 1) (member :: members) ++ line depth ++ [byte '}']

def renderElements (depth : Nat) : List Json → Text
  | [] => []
  | [element] => line depth ++ renderAt depth element
  | element :: next :: rest =>
    line depth ++ renderAt depth element ++ byte ',' :: renderElements depth (next :: rest)

def renderMembers (depth : Nat) : List (Text × Json) → Text
  | [] => []
  | [(key, value)] => line depth ++ quote key ++ ascii ": " ++ renderAt depth value
  | (key, value) :: next :: rest =>
    line depth ++ quote key ++ ascii ": " ++ renderAt depth value ++
      byte ',' :: renderMembers depth (next :: rest)

end

def render (j : Json) : Text := renderAt 0 j ++ [byte '\n']

mutual

def isUtf8 : Json → Bool
  | string value => value.isUtf8
  | array elements => areUtf8 elements
  | object members => haveUtf8 members
  | _ => true

def areUtf8 : List Json → Bool
  | [] => true
  | element :: rest => element.isUtf8 && areUtf8 rest

def haveUtf8 : List (Text × Json) → Bool
  | [] => true
  | (key, value) :: rest => key.isUtf8 && value.isUtf8 && haveUtf8 rest

end

def print? (j : Json) : Option Text := if j.isUtf8 then some j.render else none

/-- The integer that a number is, if it is one of at most nineteen digits or so. -/
def integer? (mantissa exponent : Int) : Option Int :=
  if mantissa = 0 then some 0
  else if 0 ≤ exponent then
    if exponent ≤ 20 then some (mantissa * Nat.pow 10 exponent.toNat) else none
  else
    let places := (-exponent).toNat
    if places ≤ (Text.ofNat mantissa.natAbs).length && mantissa % Nat.pow 10 places == 0 then
      some (mantissa / Nat.pow 10 places)
    else
      none

def inRange (bits : Nat) (n : Int) : Bool :=
  -(1 <<< (bits - 1) : Nat) ≤ n && n < (1 <<< (bits - 1) : Nat)

/--
Reads a value as a signed integer of a number of bits. The integer may be written with a point or an
exponent, and in quotes; `null` is zero.
-/
def toInt? (bits : Nat) : Json → Option Int
  | null => some 0
  | number mantissa exponent => (integer? mantissa exponent).filter (inRange bits)
  | string value =>
    match number? value with
    | some ((mantissa, exponent), []) => (integer? mantissa exponent).filter (inRange bits)
    | _ => none
  | _ => none

/-- Reads a value as a text; `null` is the empty one. -/
def toText? : Json → Option Text
  | null => some []
  | string value => some value
  | _ => none

def ofInt (n : Int) : Json := .number n 0

/-- The value of the last member of a name. -/
def find? (key : Text) (members : List (Text × Json)) : Option Json :=
  (members.reverse.find? (·.1 == key)).map (·.2)

end Json

end SchemaMigration
