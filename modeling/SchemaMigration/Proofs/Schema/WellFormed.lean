import SchemaMigration.Proofs.Basic
import SchemaMigration.Schema.Printer

/-!
This module contains the schema trees that the language can express.
-/

namespace SchemaMigration

namespace Schema

def IsWord : Text → Prop
  | [] => False
  | b :: rest => Byte.isWordStart b = true ∧ ∀ c ∈ rest, Byte.isWordPart c = true

def IsName (t : Text) : Prop := IsWord t ∧ isReservedWord t = false

def IsDecoratorName (t : Text) : Prop := t ≠ [] ∧ ∀ b ∈ t, Byte.isWordPart b = true

def IsTrimmedLine (t : Text) : Prop :=
  byte '\n' ∉ t ∧ (∀ b ∈ t.head?, Byte.isSpace b = false) ∧
    ∀ b ∈ t.getLast?, Byte.isSpace b = false

def Arguments.WellFormed (a : Arguments) : Prop := a.written = false → a.values = []

structure Decorator.WellFormed (d : Decorator) : Prop where
  name : IsDecoratorName d.name
  arguments : d.arguments.WellFormed

structure Column.WellFormed (c : Column) : Prop where
  name : IsName c.name
  type : isScalarType c.type = true
  typeArguments : c.typeArguments.WellFormed
  decorators : ∀ d ∈ c.decorators, d.WellFormed
  distinct : (c.decorators.map (·.name)).Nodup

structure Model.WellFormed (m : Model) : Prop where
  name : IsName m.name
  nonempty : m.columns ≠ []
  columns : ∀ c ∈ m.columns, c.WellFormed

end Schema

structure Schema.WellFormed (s : Schema) : Prop where
  models : ∀ m ∈ s.models, m.WellFormed
  distinct : (s.models.map (·.name)).Nodup
  rawSql : ∀ sql ∈ s.rawSql, Schema.IsTrimmedLine sql

namespace Schema

theorem isBareWord_iff (t : Text) : isBareWord t = true ↔ IsName t := by
  cases t with
  | nil => simp [isBareWord, IsName, IsWord]
  | cons b rest => simp [isBareWord, IsName, IsWord]

theorem isWordPart_of_isWordStart {b : UInt8} (h : Byte.isWordStart b = true) :
    Byte.isWordPart b = true := by
  simp [Byte.isWordPart, h]

theorem exists_name_of_isScalarType {w : Text} (h : isScalarType w = true) :
    ∃ type : ScalarType, w = type.name := by
  obtain ⟨type, htype⟩ := Option.isSome_iff_exists.mp h
  have := List.find?_some htype
  exact ⟨type, (beq_iff_eq.mp this).symm⟩

theorem isWord_name (type : ScalarType) : IsWord type.name := by
  cases type
  all_goals exact ⟨rfl, List.all_eq_true.mp rfl⟩

theorem Arguments.ofOption_toOption {a : Arguments} (h : a.WellFormed) :
    ofOption a.toOption = a := by
  obtain ⟨written, values⟩ := a
  cases written with
  | true => rfl
  | false =>
    obtain rfl : values = [] := h rfl
    rfl

end Schema

end SchemaMigration
