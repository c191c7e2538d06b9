/-!
This module contains byte strings, the text type of the whole library: character classes, case,
decimal numerals, search and the byte order.
-/

namespace SchemaMigration

/--
A byte string. Sources, file contents, paths, statements and messages are byte strings, so lengths
and columns count bytes and no encoding is assumed.
-/
abbrev Text := List UInt8

@[reducible] def byte (c : Char) : UInt8 := c.toUInt8

def ascii (s : String) : Text := s.toList.map byte

namespace Byte

def isDigit (b : UInt8) : Bool := byte '0' ≤ b && b ≤ byte '9'

def isLower (b : UInt8) : Bool := byte 'a' ≤ b && b ≤ byte 'z'

def isUpper (b : UInt8) : Bool := byte 'A' ≤ b && b ≤ byte 'Z'

def isLetter (b : UInt8) : Bool := isLower b || isUpper b

def isWordStart (b : UInt8) : Bool := isLetter b || b == byte '_'

def isWordPart (b : UInt8) : Bool := isWordStart b || isDigit b

def isSpace (b : UInt8) : Bool := b == byte ' ' || (9 ≤ b && b ≤ 13)

def toLower (b : UInt8) : UInt8 := if isUpper b then b + 32 else b

def toUpper (b : UInt8) : UInt8 := if isLower b then b - 32 else b

def digit (n : Nat) : UInt8 := UInt8.ofNat (48 + n)

end Byte

namespace Text

def lower (t : Text) : Text := t.map Byte.toLower

def upper (t : Text) : Text := t.map Byte.toUpper

def ofNat (n : Nat) : Text :=
  go (n + 1) n []
where
  /-- Puts the numeral of `n` before `acc`; the first argument bounds the number of digits. -/
  go : Nat → Nat → Text → Text
    | 0, _, acc => acc
    | fuel + 1, n, acc =>
      if n < 10 then
        Byte.digit n :: acc
      else
        go fuel (n / 10) (Byte.digit (n % 10) :: acc)

def ofInt : Int → Text
  | .ofNat n => ofNat n
  | .negSucc n => byte '-' :: ofNat (n + 1)

def digitsValue (t : Text) : Nat :=
  t.foldl (fun n b => 10 * n + (b.toNat - 48)) 0

def padZeros (width : Nat) (t : Text) : Text :=
  List.replicate (width - t.length) (byte '0') ++ t

def inQuotes (t : Text) : Text := byte '"' :: t ++ [byte '"']

def join (separator : Text) : List Text → Text
  | [] => []
  | [t] => t
  | t :: rest => t ++ separator ++ join separator rest

def occursIn (needle : Text) : Text → Bool
  | [] => needle.isEmpty
  | b :: rest => needle.isPrefixOf (b :: rest) || occursIn needle rest

/-- The part before the first byte that satisfies `p`, and the part after it if there is one. -/
def splitFirst (p : UInt8 → Bool) (t : Text) : Text × Option Text :=
  match t.dropWhile (fun b => !p b) with
  | [] => (t, none)
  | _ :: after => (t.takeWhile (fun b => !p b), some after)

def splitOn (separator : UInt8) : Text → List Text
  | [] => [[]]
  | b :: rest =>
    if b == separator then
      [] :: splitOn separator rest
    else
      match splitOn separator rest with
      | [] => [[b]]
      | part :: parts => (b :: part) :: parts

def trim (t : Text) : Text :=
  ((t.dropWhile Byte.isSpace).reverse.dropWhile Byte.isSpace).reverse

/-- The part before the first zero byte: what is left of a text that is passed on as a message. -/
def beforeNul (t : Text) : Text := t.takeWhile (· != 0)

/-- The order of texts: byte by byte, a proper beginning before the longer text. -/
def le : Text → Text → Bool
  | [], _ => true
  | _ :: _, [] => false
  | a :: s, b :: t => a < b || (a == b && le s t)

def insertSorted (t : Text) : List Text → List Text
  | [] => [t]
  | u :: rest => if le t u then t :: u :: rest else u :: insertSorted t rest

def sort (ts : List Text) : List Text := ts.foldr insertSorted []

def insertDistinct (t : Text) : List Text → List Text
  | [] => [t]
  | u :: rest =>
    if t == u then u :: rest
    else if le t u then t :: u :: rest
    else u :: insertDistinct t rest

def sortDistinct (ts : List Text) : List Text := ts.foldr insertDistinct []

def hexDigit (n : Nat) : UInt8 :=
  if n < 10 then Byte.digit n else UInt8.ofNat (87 + n)

def hexByte (b : UInt8) : Text := [hexDigit (b.toNat / 16), hexDigit (b.toNat % 16)]

def hex (t : Text) : Text := t.flatMap hexByte

end Text

end SchemaMigration
