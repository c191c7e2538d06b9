import SchemaMigration.Proofs.Sql.Quoting

/-!
This module contains that the statements that undo a schema drop the tables that the statements that
apply it create, in reverse order.
-/

namespace SchemaMigration.Sql

variable {dialect : Dialect} {s : Schema} {statements : List Text}

def Creates (dialect : Dialect) (table sql : Text) : Prop :=
  ∃ rest, sql = ascii "CREATE TABLE " ++ enclose dialect.quoteByte table ++ ascii " (\n" ++ rest

def Drops (dialect : Dialect) (table sql : Text) : Prop :=
  sql = ascii "DROP TABLE IF EXISTS " ++ enclose dialect.quoteByte table ++ ascii ";"

theorem Table.create_creates {m : Schema.Model} {sql : Text}
    (h : Table.create dialect m = .ok sql) : Creates dialect m.name sql := by
  unfold Table.create at h
  obtain ⟨table, htable, h⟩ := bind_eq_ok.mp h
  obtain ⟨parts, _, h⟩ := bind_eq_ok.mp h
  cases Table.quoted_ok htable
  cases h
  exact ⟨_, List.append_assoc _ _ _⟩

theorem Table.drop_drops {m : Schema.Model} {sql : Text}
    (h : Table.drop dialect m = .ok sql) : Drops dialect m.name sql := by
  unfold Table.drop at h
  obtain ⟨table, htable, h⟩ := bind_eq_ok.mp h
  cases Table.quoted_ok htable
  cases h
  rfl

theorem up_creates (h : up dialect s = .ok statements) :
    ∃ tables, statements = tables ++ s.rawSql ∧
      List.Forall₂ (Creates dialect) (s.models.map (·.name)) tables := by
  unfold up at h
  obtain ⟨tables, htables, h⟩ := bind_eq_ok.mp h
  cases h
  refine ⟨tables, rfl, ?_⟩
  rw [List.forall₂_map_left_iff]
  apply (forall₂_of_mapM_ok htables).imp
  intro m sql hcreate
  exact Table.create_creates hcreate

theorem down_drops (h : down dialect s = .ok statements) :
    List.Forall₂ (Drops dialect) (s.models.map (·.name)).reverse statements := by
  rw [← List.map_reverse, List.forall₂_map_left_iff]
  apply (forall₂_of_mapM_ok h).imp
  intro m sql hdrop
  exact Table.drop_drops hdrop

end SchemaMigration.Sql
