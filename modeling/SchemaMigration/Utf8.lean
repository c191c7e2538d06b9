import SchemaMigration.Text

/-!
This module contains UTF-8: how code points are encoded, and whether a text consists of encodings.
-/

namespace SchemaMigration

namespace Utf8

def encode (code : Nat) : Text :=
  if code < 0x80 then [UInt8.ofNat code]
  else if code < 0x800 then [UInt8.ofNat (0xC0 + code / 64), UInt8.ofNat (0x80 + code % 64)]
  else if code < 0x10000 then
    [UInt8.ofNat (0xE0 + code / 4096), UInt8.ofNat (0x80 + code / 64 % 64),
      UInt8.ofNat (0x80 + code % 64)]
  else
    [UInt8.ofNat (0xF0 + code / 262144), UInt8.ofNat (0x80 + code / 4096 % 64),
      UInt8.ofNat (0x80 + code / 64 % 64), UInt8.ofNat (0x80 + code % 64)]

/-- How far a text is in an encoding: how many bytes are left, and which the next one may be. -/
inductive State where
  | start
  | oneLeft
  | twoLeft
  | threeLeft
  | afterE0
  | afterED
  | afterF0
  | afterF4
  deriving DecidableEq, Repr

/--
The first byte of an encoding. Surrogates, code points that are too large, and encodings that are
longer than needed are ruled out here or by the bounds of the second byte.
-/
def first? (b : UInt8) : Option State :=
  if b < 0x80 then some .start
  else if b < 0xC2 then none
  else if b < 0xE0 then some .oneLeft
  else if b == 0xE0 then some .afterE0
  else if b == 0xED then some .afterED
  else if b < 0xF0 then some .twoLeft
  else if b == 0xF0 then some .afterF0
  else if b < 0xF4 then some .threeLeft
  else if b == 0xF4 then some .afterF4
  else none

def within? (low high b : UInt8) (next : State) : Option State :=
  if low ≤ b && b ≤ high then some next else none

def step? : State → UInt8 → Option State
  | .start, b => first? b
  | .oneLeft, b => within? 0x80 0xBF b .start
  | .twoLeft, b => within? 0x80 0xBF b .oneLeft
  | .threeLeft, b => within? 0x80 0xBF b .twoLeft
  | .afterE0, b => within? 0xA0 0xBF b .oneLeft
  | .afterED, b => within? 0x80 0x9F b .oneLeft
  | .afterF0, b => within? 0x90 0xBF b .twoLeft
  | .afterF4, b => within? 0x80 0x8F b .twoLeft

def scan? (s : State) : Text → Option State
  | [] => some s
  | b :: rest =>
    match step? s b with
    | none => none
    | some s => scan? s rest

end Utf8

def Text.isUtf8 (t : Text) : Bool := Utf8.scan? .start t == some .start

end SchemaMigration
