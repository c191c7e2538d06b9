import Mathlib.Data.List.Induction
import Mathlib.Data.List.Nodup
import Mathlib.Logic.Function.Basic
import SchemaMigration.Proofs.Sql.Effect

/-!
This module contains the tables of a database while a batch of schemas is applied and undone. No
statement references a table of the batch that does not exist, none drops a table that another one
still references, and in the end the tables are as they were.
-/

namespace SchemaMigration.Sql

open Schema (Model)

@[reducible] def Catalogue := Text → Option (List ForeignKey)

/--
Statements are executed one after another. Of the listed tables, a new table may reference those
that exist and itself, and a table may be dropped if no other one references it.
-/
inductive Executes (quote : UInt8) (listed : List Text) : Catalogue → List Text → Catalogue → Prop
  | nil {c : Catalogue} : Executes quote listed c [] c
  | create {c c' : Catalogue} {sql table : Text} {rest : List Text} {keys : List ForeignKey}
    (heffect : effect? quote sql = some (.create table keys)) (hnew : c table = none)
    (hkeys : ∀ key ∈ keys, key.table ∈ listed → key.table = table ∨ c key.table ≠ none)
    (hrest : Executes quote listed (Function.update c table (some keys)) rest c') :
    Executes quote listed c (sql :: rest) c'
  | drop {c c' : Catalogue} {sql table : Text} {rest : List Text}
    (heffect : effect? quote sql = some (.drop table))
    (hunused : ∀ other ∈ listed, other ≠ table → ∀ keys, c other = some keys →
      ∀ key ∈ keys, key.table ≠ table)
    (hrest : Executes quote listed (Function.update c table none) rest c') :
    Executes quote listed c (sql :: rest) c'

namespace Catalogue

def extend (c : Catalogue) (models : List Model) : Catalogue := fun table =>
  match models.find? (·.name == table) with
  | some m => some (ForeignKey.ofModel m)
  | none => c table

variable {c : Catalogue} {models : List Model} {m : Model} {table : Text}

theorem extend_of_not_mem (h : table ∉ models.map (·.name)) : c.extend models table = c table := by
  have hnone : models.find? (·.name == table) = none := by
    simpa using h
  rw [extend, hnone]

theorem extend_of_mem (h : table ∈ models.map (·.name)) :
    ∃ m ∈ models, m.name = table ∧ c.extend models table = some (ForeignKey.ofModel m) := by
  cases hfind : models.find? (·.name == table) with
  | none =>
    rw [List.find?_eq_none] at hfind
    obtain ⟨m, hm, hname⟩ := List.mem_map.mp h
    exact absurd (beq_iff_eq.mpr hname) (hfind m hm)
  | some m =>
    have hname := List.find?_some hfind
    refine ⟨m, List.mem_of_find?_eq_some hfind, beq_iff_eq.mp hname, ?_⟩
    rw [extend, hfind]

theorem extend_of_nodup (hdistinct : (models.map (·.name)).Nodup) (hm : m ∈ models) :
    c.extend models m.name = some (ForeignKey.ofModel m) := by
  obtain ⟨m', hm', hname, hsome⟩ := extend_of_mem (c := c) (List.mem_map_of_mem hm)
  rw [hsome, List.inj_on_of_nodup_map hdistinct hm' hm hname]

theorem extend_concat (h : m.name ∉ models.map (·.name)) :
    c.extend (models ++ [m]) =
      Function.update (c.extend models) m.name (some (ForeignKey.ofModel m)) := by
  funext table
  by_cases htable : table = m.name
  . subst htable
    have hnone : models.find? (·.name == m.name) = none := by
      simpa using h
    rw [Function.update_self, extend, List.find?_append, hnone]
    simp
  . rw [Function.update_of_ne htable, extend, extend, List.find?_append]
    have hne : (m.name == table) = false := beq_eq_false_iff_ne.mpr (Ne.symm htable)
    cases models.find? (·.name == table) with
    | none => simp [hne]
    | some m => simp

end Catalogue

variable {dialect : Dialect} {c : Catalogue}

section Batch

variable {all : List Model} {sqls : List Text} (hdistinct : (all.map (·.name)).Nodup)
  (hnew : ∀ m ∈ all, c m.name = none)
  (hback : all.Pairwise fun earlier later =>
    ∀ key ∈ ForeignKey.ofModel earlier, key.table ≠ later.name)
include hdistinct hnew hback

theorem executes_creates {before models : List Model} (hall : all = before ++ models)
    (h : List.Forall₂ (fun m sql => Table.create dialect m = .ok sql) models sqls) :
    Executes dialect.quoteByte (all.map (·.name)) (c.extend before) sqls (c.extend all) := by
  induction h generalizing before with
  | nil =>
    rw [hall, List.append_nil]
    exact .nil
  | @cons m sql models sqls hcreate _ ih =>
    have hbefore : m.name ∉ before.map (·.name) := by
      rw [hall, List.map_append, List.map_cons] at hdistinct
      have := (List.nodup_append.mp hdistinct).2.2
      exact fun hmem => this _ hmem _ (List.mem_cons_self ..) rfl
    refine .create (Table.create_effect hcreate) ?_ ?_ ?_
    . rw [Catalogue.extend_of_not_mem hbefore]
      exact hnew m (by simp [hall])
    . intro key hkey hlisted
      rw [hall, List.map_append, List.map_cons, List.mem_append, List.mem_cons] at hlisted
      rcases hlisted with hearlier | hself | hlater
      . obtain ⟨_, _, _, hsome⟩ := Catalogue.extend_of_mem (c := c) hearlier
        rw [hsome]
        exact .inr (Option.some_ne_none _)
      . exact .inl hself
      . obtain ⟨later, hlater, hname⟩ := List.mem_map.mp hlater
        rw [hall, List.pairwise_append, List.pairwise_cons] at hback
        exact absurd hname.symm (hback.2.1.1 later hlater key hkey)
    . rw [← Catalogue.extend_concat hbefore]
      exact ih (by rw [hall, List.append_assoc]; rfl)

theorem executes_drops {models rest : List Model} (hall : all = models ++ rest)
    (h : List.Forall₂ (fun m sql => Table.drop dialect m = .ok sql) models.reverse sqls) :
    Executes dialect.quoteByte (all.map (·.name)) (c.extend models) sqls c := by
  induction models using List.reverseRecOn generalizing rest sqls with
  | nil =>
    cases h
    exact .nil
  | append_singleton models m ih =>
    rw [List.reverse_concat] at h
    cases h with
    | cons hdrop hrest =>
      have hmodels : m.name ∉ models.map (·.name) := by
        rw [hall, List.map_append, List.map_append] at hdistinct
        have := (List.nodup_append.mp (List.nodup_append.mp hdistinct).1).2.2
        exact fun hmem => this _ hmem _ (List.mem_cons_self ..) rfl
      refine .drop (Table.drop_effect hdrop) ?_ ?_
      . intro other hlisted hother keys hkeys key hkey
        rw [Catalogue.extend_concat hmodels, Function.update_of_ne hother] at hkeys
        by_cases hmem : other ∈ models.map (·.name)
        . obtain ⟨earlier, hearlier, _, hsome⟩ := Catalogue.extend_of_mem (c := c) hmem
          cases hkeys.symm.trans hsome
          rw [hall, List.pairwise_append, List.pairwise_append] at hback
          exact hback.1.2.2 earlier hearlier m (List.mem_singleton_self m) key hkey
        . -- Every listed table behind this one has been dropped already.
          obtain ⟨later, hlater, rfl⟩ := List.mem_map.mp hlisted
          rw [Catalogue.extend_of_not_mem hmem, hnew later hlater] at hkeys
          cases hkeys
      . have hrestored : Function.update (c.extend (models ++ [m])) m.name none =
            c.extend models := by
          rw [Catalogue.extend_concat hmodels, Function.update_idem, Function.update_eq_self_iff,
            Catalogue.extend_of_not_mem hmodels, hnew m (by simp [hall])]
        rw [hrestored]
        exact ih (by rw [hall, List.append_assoc]) hrest

end Batch

/-- The tables of schemas without raw SQL are created in the order of the models. -/
theorem creates_of_up {schemas : List Schema} {ups : List (List Text)}
    (h : List.Forall₂ (fun s statements => up dialect s = .ok statements) schemas ups)
    (hraw : ∀ s ∈ schemas, s.rawSql = []) :
    List.Forall₂ (fun m sql => Table.create dialect m = .ok sql) (schemas.flatMap (·.models))
      ups.flatten := by
  induction h with
  | nil => exact .nil
  | @cons s statements schemas ups hup _ ih =>
    obtain ⟨tables, htables, hup⟩ := bind_eq_ok.mp hup
    cases hup
    rw [hraw s (List.mem_cons_self ..), List.append_nil, List.flatMap_cons, List.flatten_cons]
    exact List.rel_append (forall₂_of_mapM_ok htables)
      (ih fun s hs => hraw s (List.mem_cons_of_mem _ hs))

theorem drops_of_down {schemas : List Schema} {downs : List (List Text)}
    (h : List.Forall₂ (fun s statements => down dialect s = .ok statements) schemas downs) :
    List.Forall₂ (fun m sql => Table.drop dialect m = .ok sql)
      (schemas.flatMap (·.models.reverse)) downs.flatten := by
  induction h with
  | nil => exact .nil
  | cons hdown _ ih =>
    rw [List.flatMap_cons, List.flatten_cons]
    exact List.rel_append (forall₂_of_mapM_ok hdown) ih

theorem exists_down_ok {s : Schema} {statements : List Text} (h : up dialect s = .ok statements) :
    ∃ drops, down dialect s = .ok drops := by
  have hvalid := exists_up_ok_iff.mp ⟨statements, h⟩
  refine exists_mapM_ok_iff.mpr fun m hm => ?_
  unfold Table.drop
  obtain ⟨table, htable⟩ := (Table.exists_quoted_ok_iff (ascii "table name")).mpr
    (hvalid m (List.mem_reverse.mp hm)).name
  exact exists_bind_ok_iff.mpr ⟨table, htable, _, rfl⟩

/--
A batch of schemas that the dialect accepts is applied to tables among which none of its own is, and
is undone in reverse order. No model references a later one. Then the schemas can be undone, all
statements can be executed, and in the end the tables are as they were.
-/
theorem executes_up_then_down {schemas : List Schema} {ups : List (List Text)}
    (hups : schemas.mapM (up dialect) = .ok ups)
    (hraw : ∀ s ∈ schemas, s.rawSql = [])
    (hdistinct : ((schemas.flatMap (·.models)).map (·.name)).Nodup)
    (hnew : ∀ m ∈ schemas.flatMap (·.models), c m.name = none)
    (hback : (schemas.flatMap (·.models)).Pairwise fun earlier later =>
      ∀ key ∈ ForeignKey.ofModel earlier, key.table ≠ later.name) :
    ∃ downs applied,
      schemas.reverse.mapM (down dialect) = .ok downs ∧
      Executes dialect.quoteByte ((schemas.flatMap (·.models)).map (·.name)) c ups.flatten
        applied ∧
      (∀ m ∈ schemas.flatMap (·.models), applied m.name = some (ForeignKey.ofModel m)) ∧
      Executes dialect.quoteByte ((schemas.flatMap (·.models)).map (·.name)) applied downs.flatten
        c := by
  have haccepted := exists_mapM_ok_iff.mp ⟨ups, hups⟩
  obtain ⟨downs, hdowns⟩ : ∃ downs, schemas.reverse.mapM (down dialect) = .ok downs := by
    refine exists_mapM_ok_iff.mpr fun s hs => ?_
    obtain ⟨statements, hup⟩ := haccepted s (List.mem_reverse.mp hs)
    exact exists_down_ok hup
  have hcreates := creates_of_up (forall₂_of_mapM_ok hups) hraw
  have hdrops := drops_of_down (forall₂_of_mapM_ok hdowns)
  have hreverse : schemas.reverse.flatMap (·.models.reverse) =
      (schemas.flatMap (·.models)).reverse := List.reverse_flatMap.symm
  rw [hreverse] at hdrops
  refine ⟨downs, c.extend (schemas.flatMap (·.models)), hdowns, ?_, ?_, ?_⟩
  . exact executes_creates hdistinct hnew hback (List.nil_append _).symm hcreates
  . intro m hm
    exact Catalogue.extend_of_nodup hdistinct hm
  . exact executes_drops hdistinct hnew hback (List.append_nil _).symm hdrops

/-- Two files, of which the second references itself, the first and a table that exists already. -/
theorem executes_comments_then_undone :
    let reference : Text → Text → Schema.Column := fun name target =>
      ⟨name, ascii "Int", ⟨false, []⟩, [⟨ascii "ref", ⟨true, [target]⟩⟩]⟩
    let schemas : List Schema :=
      [⟨[⟨ascii "users", []⟩,
          ⟨ascii "posts", [reference (ascii "author") (ascii "users.id")]⟩], []⟩,
        ⟨[⟨ascii "comments", [reference (ascii "post") (ascii "posts.id"),
          reference (ascii "parent") (ascii "comments.id"),
          reference (ascii "site") (ascii "sites.id")]⟩], []⟩]
    let c : Catalogue := fun table => if table = ascii "sites" then some [] else none
    ∃ ups downs applied,
      schemas.mapM (up .mysql) = .ok ups ∧ schemas.reverse.mapM (down .mysql) = .ok downs ∧
      Executes 0x60 [ascii "users", ascii "posts", ascii "comments"] c ups.flatten applied ∧
      Executes 0x60 [ascii "users", ascii "posts", ascii "comments"] applied downs.flatten c := by
  intro reference schemas c
  obtain ⟨ups, hups⟩ : ∃ ups, schemas.mapM (up .mysql) = .ok ups := ⟨_, rfl⟩
  obtain ⟨downs, applied, hdowns, hup, _, hdown⟩ := executes_up_then_down (c := c) hups
    (by decide) (by decide) (by decide) (by decide +kernel)
  exact ⟨ups, downs, applied, hups, hdowns, hup, hdown⟩

end SchemaMigration.Sql
