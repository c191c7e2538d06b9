import SchemaMigration.Text

/-!
This module contains tokens: random names that no two processes share, written as UUIDs.
-/

namespace SchemaMigration.Name

/-- Sixteen bytes as hexadecimal digits in groups of 8, 4, 4, 4 and 12. -/
def ofBytes (bytes : Text) : Text :=
  let digits := Text.hex bytes
  Text.join [byte '-']
    [digits.take 8, (digits.drop 8).take 4, (digits.drop 12).take 4, (digits.drop 16).take 4,
      digits.drop 20]

/-- Marks sixteen random bytes as such: version 4, variant 2. -/
def mark (bytes : Text) : Text :=
  (bytes.modify 6 fun b => (b &&& 0x0F) ||| 0x40).modify 8 fun b => (b &&& 0x3F) ||| 0x80

end SchemaMigration.Name
