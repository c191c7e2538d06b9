import SchemaMigration.Proofs.Basic
import SchemaMigration.Proofs.Decimal
import SchemaMigration.Proofs.Sql.Numeral
import SchemaMigration.Proofs.Sql.Scanner
import SchemaMigration.Sql.Statement

/-!
This module contains what may stand outside of quotes in the statements that create tables, and how
texts are put together from such words and from quoted texts.
-/

namespace SchemaMigration.Sql

open Schema (Column Decorator Model)

def vocabulary : List Text :=
  [ascii "CREATE TABLE ", ascii " (\n", ascii "  ", ascii ",\n", [byte '\n'], [byte ')'],
    ascii ";", ascii " ENGINE=InnoDB DEFAULT CHARSET=utf8mb4 COLLATE=utf8mb4_unicode_ci;",
    -- the types
    [byte ' '], [byte '('], ascii ", ", ascii "VARCHAR", ascii "CHAR", ascii "NUMERIC",
    ascii "DECIMAL", ascii "ENUM", ascii "SERIAL", ascii "INT AUTO_INCREMENT", ascii "INT",
    ascii "INTEGER", ascii "BIGINT", ascii "SMALLINT", ascii "TEXT", ascii "BOOLEAN",
    ascii "TIMESTAMP", ascii "DATE", ascii "TIME", ascii "REAL", ascii "FLOAT", ascii "DOUBLE",
    ascii "DOUBLE PRECISION", ascii "JSON", ascii "JSONB", ascii "UUID", ascii "CHAR(36)",
    ascii "255", ascii "10", ascii "2", ascii "1",
    -- the clauses of a column
    ascii " UNIQUE", ascii " NOT NULL", ascii " DEFAULT ", ascii "PRIMARY KEY",
    ascii "PRIMARY KEY AUTOINCREMENT", ascii "CURRENT_TIMESTAMP", ascii "TRUE", ascii "FALSE",
    ascii "0", ascii " CHECK (", ascii " IN (", ascii "))",
    -- the foreign keys
    ascii "FOREIGN KEY (", ascii ") REFERENCES ", ascii " ON DELETE ", ascii "CASCADE",
    ascii "SET NULL", ascii "SET DEFAULT", ascii "RESTRICT", ascii "NO ACTION"]

def IsEnumeration (c : Column) : Prop := c.type = ascii "Enum"

instance (c : Column) : Decidable (IsEnumeration c) := inferInstanceAs (Decidable (_ = _))

def widthFor (members : List Text) : Nat := (members.map List.length).foldl max 50

/--
What stands outside of quotes in the statement for a model. Only numbers depend on the model: type
arguments, default values, and the width of a column that holds an enumeration.
-/
inductive Bare (dialect : Dialect) (m : Model) : Text → Prop
  | fixed {w : Text} (hw : w ∈ vocabulary) : Bare dialect m w
  | typeArgument {c : Column} (hc : c ∈ m.columns) {w : Text} (hw : w ∈ c.typeArgs)
    (hdigits : isUnsignedInteger w) : Bare dialect m w
  | default {c : Column} (hc : c ∈ m.columns) {d : Decorator} (hd : d ∈ c.decorators)
    (hname : d.name = ascii "default") {w : Text} (hw : w ∈ d.args)
    (hnumeric : isNumericLiteral w) : Bare dialect m w
  | width {c : Column} (hc : c ∈ m.columns) (henum : IsEnumeration c)
    (hdialect : dialect = .postgres) : Bare dialect m (Text.ofNat (widthFor c.typeArgs))

def isQuote (b : UInt8) : Bool := b == byte '"' || b == 0x60 || b == byte '\''

variable {dialect : Dialect} {m : Model} {s t w : Text}
  {identifiers identifiers' literals literals' : List Text}

theorem opens?_eq_none {b : UInt8} (h : isQuote b = false) (dialect : Dialect) :
    Scanner.opens? dialect.quoteByte b = none := by
  simp only [isQuote, Bool.or_eq_false_iff] at h
  cases dialect with
  | postgres => simp [Scanner.opens?, Dialect.quoteByte, h]
  | mysql => simp [Scanner.opens?, Dialect.quoteByte, h]
  | sqlite => simp [Scanner.opens?, Dialect.quoteByte, h]

theorem isQuote_of_isDigit {b : UInt8} (h : Byte.isDigit b = true) : isQuote b = false := by
  simp only [isQuote, Bool.or_eq_false_iff]
  refine ⟨⟨?_, ?_⟩, ?_⟩
  . exact beq_false_of_class h (by decide)
  . exact beq_false_of_class h (by decide)
  . exact beq_false_of_class h (by decide)

theorem mem_of_isUnsignedInteger (h : isUnsignedInteger w = true) {b : UInt8} (hb : b ∈ w) :
    Byte.isDigit b = true :=
  (isUnsignedInteger_iff.mp h).2 b hb

theorem not_isQuote_of_isBareNumber (h : Schema.isBareNumber w = true) {b : UInt8} (hb : b ∈ w) :
    isQuote b = false := by
  cases Schema.isBareNumber_iff.mp h with
  | inl hdigits => exact isQuote_of_isDigit (hdigits.2 b hb)
  | inr h =>
    obtain ⟨whole, places, rfl, hwhole, hplaces⟩ := h
    rw [List.mem_append, List.mem_cons] at hb
    obtain hb | rfl | hb := hb
    . exact isQuote_of_isDigit (hwhole.2 b hb)
    . decide
    . exact isQuote_of_isDigit (hplaces.2 b hb)

theorem not_isQuote_of_isNumericLiteral (h : isNumericLiteral w = true) {b : UInt8} (hb : b ∈ w) :
    isQuote b = false := by
  cases isNumericLiteral_iff.mp h with
  | inl hnumber => exact not_isQuote_of_isBareNumber hnumber hb
  | inr hsigned =>
    obtain ⟨u, rfl, hnumber⟩ := hsigned
    cases hb with
    | head => decide
    | tail _ hb => exact not_isQuote_of_isBareNumber hnumber hb

theorem Bare.not_isQuote (h : Bare dialect m w) {b : UInt8} (hb : b ∈ w) : isQuote b = false := by
  cases h with
  | fixed hw =>
    have hall : ∀ w ∈ vocabulary, ∀ b ∈ w, isQuote b = false := by decide +kernel
    exact hall w hw b hb
  | typeArgument _ _ hdigits => exact isQuote_of_isDigit (mem_of_isUnsignedInteger hdigits hb)
  | default _ _ _ _ hnumeric => exact not_isQuote_of_isNumericLiteral hnumeric hb
  | width _ _ _ => exact isQuote_of_isDigit (Text.isDigit_of_mem_ofNat b hb)

def Writes (dialect : Dialect) (m : Model) (t : Text) (identifiers literals : List Text) : Prop :=
  ∃ tokens, Scanner.Reads dialect.quoteByte t tokens ∧
    Token.contents .identifier tokens = identifiers ∧ Token.contents .literal tokens = literals ∧
    ∃ words : List Text, Token.outside tokens = words.flatten ∧ ∀ w ∈ words, Bare dialect m w

def Follows (dialect : Dialect) (m : Model) (t : Text) (identifiers literals : List Text) : Prop :=
  Writes dialect m t identifiers literals ∧
    ∀ b ∈ t.head?, Scanner.opens? dialect.quoteByte b = none

theorem follows_nil : Follows dialect m [] [] [] := by
  refine ⟨⟨[], Scanner.reads_nil, rfl, rfl, [], rfl, ?_⟩, ?_⟩
  . intro w hw
    cases hw
  . intro b hb
    cases hb

theorem Writes.word_append (hw : Bare dialect m w) (ht : Writes dialect m t identifiers literals) :
    Writes dialect m (w ++ t) identifiers literals := by
  obtain ⟨tokens, hreads, rfl, rfl, words, houtside, hwords⟩ := ht
  refine ⟨w.map .bare ++ tokens, ?_, ?_, ?_, w :: words, ?_, ?_⟩
  . exact hreads.bare_append fun b hb => opens?_eq_none (hw.not_isQuote hb) dialect
  . simp
  . simp
  . simp [houtside]
  . intro w' hw'
    cases hw' with
    | head => exact hw
    | tail _ hmem => exact hwords w' hmem

theorem Writes.append (hs : Writes dialect m s identifiers literals)
    (ht : Follows dialect m t identifiers' literals') :
    Writes dialect m (s ++ t) (identifiers ++ identifiers') (literals ++ literals') := by
  obtain ⟨tokens, hreads, rfl, rfl, words, houtside, hwords⟩ := hs
  obtain ⟨⟨tokens', hreads', rfl, rfl, words', houtside', hwords'⟩, hstart⟩ := ht
  refine ⟨tokens ++ tokens', hreads.append hreads' hstart, ?_, ?_, words ++ words', ?_, ?_⟩
  . simp
  . simp
  . simp [houtside, houtside']
  . intro w hw
    rw [List.mem_append] at hw
    exact hw.elim (hwords w) (hwords' w)

theorem Follows.append (hs : Follows dialect m s identifiers literals)
    (ht : Follows dialect m t identifiers' literals') :
    Follows dialect m (s ++ t) (identifiers ++ identifiers') (literals ++ literals') := by
  refine ⟨hs.1.append ht, ?_⟩
  cases s with
  | nil => exact ht.2
  | cons b s => exact hs.2

theorem Follows.word_append (hw : Bare dialect m w) (hne : w ≠ [])
    (ht : Writes dialect m t identifiers literals) :
    Follows dialect m (w ++ t) identifiers literals := by
  refine ⟨ht.word_append hw, ?_⟩
  cases w with
  | nil => contradiction
  | cons b w =>
    rintro _ ⟨⟩
    exact opens?_eq_none (hw.not_isQuote (List.mem_cons_self ..)) dialect

theorem Follows.fixed_append (hw : w ∈ vocabulary) (ht : Writes dialect m t identifiers literals) :
    Follows dialect m (w ++ t) identifiers literals := by
  have hne : ∀ w ∈ vocabulary, w ≠ [] := by decide +kernel
  exact Follows.word_append (.fixed hw) (hne w hw) ht

theorem follows_fixed (hw : w ∈ vocabulary) : Follows dialect m w [] [] := by
  have h : Follows dialect m (w ++ []) [] [] := Follows.fixed_append hw follows_nil.1
  rw [List.append_nil] at h
  exact h

theorem writes_word (hw : Bare dialect m w) : Writes dialect m w [] [] := by
  have h : Writes dialect m (w ++ []) [] [] := follows_nil.1.word_append hw
  rw [List.append_nil] at h
  exact h

theorem writes_identifier (dialect : Dialect) (m : Model) (name : Text) :
    Writes dialect m (enclose dialect.quoteByte name) [name] [] := by
  have hopens : Scanner.opens? dialect.quoteByte dialect.quoteByte = some .identifier := by
    simp [Scanner.opens?]
  refine ⟨_, Scanner.reads_enclose .identifier hopens name, rfl, rfl, [], rfl, ?_⟩
  intro w hw
  cases hw

theorem writes_literal (dialect : Dialect) (m : Model) (value : Text) :
    Writes dialect m (quoteLiteral value) [] [value] := by
  have hopens : Scanner.opens? dialect.quoteByte (byte '\'') = some .literal := by
    cases dialect with
    | postgres => rfl
    | mysql => rfl
    | sqlite => rfl
  refine ⟨_, Scanner.reads_enclose .literal hopens value, rfl, rfl, [], rfl, ?_⟩
  intro w hw
  cases hw

end SchemaMigration.Sql
