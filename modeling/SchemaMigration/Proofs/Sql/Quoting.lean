import SchemaMigration.Proofs.Sql.ColumnType
import SchemaMigration.Proofs.Sql.Vocabulary

/-!
This module contains what a scanner finds in the statements that create tables: the names and values
of the schema stand in quotes, and outside of quotes there is nothing of the schema but numbers.
-/

namespace SchemaMigration.Sql

open Schema (Column Decorator Model)

def members (c : Column) : List Text := if IsEnumeration c then c.typeArgs else []

/-- The default values that are read as keywords, in any casing. -/
def defaultKeywords : List Text := [ascii "now", ascii "true", ascii "false"]

def stringDefaults (d : Decorator) : List Text :=
  if d.name = ascii "default" then
    d.args.filter fun v => !defaultKeywords.contains v.lower && !isNumericLiteral v
  else []

def columnIdentifiers (dialect : Dialect) (c : Column) : List Text :=
  if IsEnumeration c ∧ dialect ≠ .mysql then [c.name, c.name] else [c.name]

def columnLiterals (dialect : Dialect) (c : Column) : List Text :=
  if dialect = .mysql then members c ++ c.decorators.flatMap stringDefaults
  else c.decorators.flatMap stringDefaults ++ members c

def referenceIdentifiers (c : Column) : List Text :=
  match (c.decorator? (ascii "ref")).bind (·.args.head?) with
  | none => []
  | some target =>
    c.name :: (target.splitFirst (· == byte '.')).1 ::
      (target.splitFirst (· == byte '.')).2.toList

/-- The identifiers in the statement for a model: the foreign keys stand behind all columns. -/
def tableIdentifiers (dialect : Dialect) (m : Model) : List Text :=
  m.name :: m.columns.flatMap (columnIdentifiers dialect) ++ m.columns.flatMap referenceIdentifiers

def tableLiterals (dialect : Dialect) (m : Model) : List Text :=
  m.columns.flatMap (columnLiterals dialect)

variable {dialect : Dialect} {m : Model} {c : Column} {d : Decorator}

namespace ColumnType

def numerals : ColumnType → List Text
  | varChar length? | char length? => length?.toList
  | decimalPrecision precision => [precision]
  | decimalScale precision scale => [precision, scale]
  | decimal | enumeration _ _ | plain _ => []

structure Fits (c : Column) (type : ColumnType) : Prop where
  numerals : ∀ n ∈ type.numerals, n ∈ c.typeArgs ∧ isUnsignedInteger n
  members : type.members = Sql.members c
  ne_nil : IsEnumeration c → type.members ≠ []

variable {type : ColumnType}

theorem lengthArgument?_ok {length? : Option Text} (h : lengthArgument? c = .ok length?) :
    ∀ n ∈ length?.toList, n ∈ c.typeArgs ∧ isUnsignedInteger n := by
  unfold lengthArgument? at h
  split at h
  . cases h
    simp
  . next arg hargs =>
    split at h
    . next hdigits =>
      cases h
      simp [hargs, hdigits]
    . contradiction
  . contradiction

theorem decimalOf_ok (h : decimalOf c = .ok type) :
    type.members = [] ∧ ∀ n ∈ type.numerals, n ∈ c.typeArgs ∧ isUnsignedInteger n := by
  unfold decimalOf at h
  split at h
  . contradiction
  split at h
  . contradiction
  . next hnone =>
    have hdigits : ∀ n ∈ c.typeArgs, isUnsignedInteger n := by
      simpa using hnone
    split at h
    . next precision scale rest hargs =>
      cases h
      rw [hargs] at hdigits
      simp_all [members, numerals]
    . next precision hargs =>
      cases h
      rw [hargs] at hdigits
      simp_all [members, numerals]
    . cases h
      simp [members, numerals]

theorem plainOf_ok {type? : Option PlainType} (h : plainOf c type? = .ok type) :
    type.members = [] ∧ ∀ n ∈ type.numerals, n ∈ c.typeArgs ∧ isUnsignedInteger n := by
  unfold plainOf at h
  split at h
  . cases type? with
    | none => contradiction
    | some plain =>
      cases h
      simp [members, numerals]
  . contradiction

theorem isEnumeration_iff :
    IsEnumeration c ↔ Schema.ScalarType.ofName? c.type = some .enumeration := by
  constructor
  . intro h
    rw [h]
    decide
  . intro h
    have hname := List.find?_some h
    exact (beq_iff_eq.mp hname).symm

theorem ofColumn_ok (h : ofColumn c = .ok type) : Fits c type := by
  by_cases hc : IsEnumeration c
  . unfold ofColumn at h
    rw [isEnumeration_iff.mp hc] at h
    dsimp only at h
    unfold enumerationOf at h
    split at h
    . contradiction
    . next first others hargs =>
      cases h
      constructor
      . simp [numerals]
      . rw [Sql.members, if_pos hc, hargs]
        rfl
      . exact fun _ => List.cons_ne_nil _ _
  . suffices hother : type.members = [] ∧
        ∀ n ∈ type.numerals, n ∈ c.typeArgs ∧ isUnsignedInteger n by
      constructor
      . exact hother.2
      . rw [Sql.members, if_neg hc]
        exact hother.1
      . exact fun henum => absurd henum hc
    unfold ofColumn at h
    split at h
    . obtain ⟨length?, hlength, rfl⟩ := map_eq_ok.mp h
      exact ⟨rfl, lengthArgument?_ok hlength⟩
    . obtain ⟨length?, hlength, rfl⟩ := map_eq_ok.mp h
      exact ⟨rfl, lengthArgument?_ok hlength⟩
    . exact decimalOf_ok h
    . exact decimalOf_ok h
    . next htype => exact absurd (isEnumeration_iff.mpr htype) hc
    all_goals exact plainOf_ok h

theorem literals_writes (first : Text) (others : List Text) :
    Writes dialect m (literals (first :: others)) [] (first :: others) := by
  induction others generalizing first with
  | nil => exact writes_literal dialect m first
  | cons second others ih =>
    have hrest : Follows dialect m (ascii ", " ++ literals (second :: others)) []
        (second :: others) := Follows.fixed_append (by simp [vocabulary]) (ih second)
    have h := (writes_literal dialect m first).append hrest
    rw [← List.append_assoc] at h
    exact h

theorem withArgument_follows {word arg : Text} {values : List Text} (hword : word ∈ vocabulary)
    (harg : Writes dialect m arg [] values) :
    Follows dialect m (withArgument word arg) [] values := by
  have hclose := harg.append (follows_fixed (w := [byte ')']) (by simp [vocabulary]))
  have hopen := Follows.fixed_append (w := [byte '(']) (by simp [vocabulary]) hclose
  have h := Follows.fixed_append hword hopen.1
  simpa [withArgument] using h

theorem withArguments_follows {word first second : Text} (hword : word ∈ vocabulary)
    (hfirst : Bare dialect m first) (hsecond : Bare dialect m second) :
    Follows dialect m (withArguments word first second) [] [] := by
  have hcomma := Follows.fixed_append (w := ascii ", ") (by simp [vocabulary]) (writes_word hsecond)
  have h := withArgument_follows hword ((writes_word hfirst).append hcomma)
  simpa [withArgument, withArguments] using h

theorem plain_mem_vocabulary (dialect : Dialect) (type : PlainType) :
    (plain type).render dialect ∈ vocabulary := by
  cases dialect with
  | postgres => cases type <;> simp [render, postgres, vocabulary]
  | mysql => cases type <;> simp [render, mysql, vocabulary]
  | sqlite => cases type <;> simp [render, sqlite, vocabulary]

theorem Fits.numeral (h : Fits c type) (hc : c ∈ m.columns) {n : Text} (hn : n ∈ type.numerals) :
    Bare dialect m n :=
  .typeArgument hc (h.numerals n hn).1 (h.numerals n hn).2

theorem Fits.withArgument_follows (h : Fits c type) (hc : c ∈ m.columns) {word n : Text}
    (hword : word ∈ vocabulary) (hn : n ∈ type.numerals) :
    Follows dialect m (withArgument word n) [] [] :=
  ColumnType.withArgument_follows hword (writes_word (h.numeral hc hn))

theorem Fits.enumeration {first : Text} {others : List Text}
    (h : Fits c (.enumeration first others)) : IsEnumeration c ∧ c.typeArgs = first :: others := by
  have hmembers := h.members
  unfold Sql.members at hmembers
  split at hmembers
  . next henum => exact ⟨henum, hmembers.symm⟩
  . contradiction

theorem postgres_follows (hc : c ∈ m.columns) (h : Fits c type) :
    Follows .postgres m type.postgres [] [] := by
  cases type with
  | varChar length? =>
    cases length? with
    | none => exact follows_fixed (by simp [postgres, vocabulary])
    | some n => exact h.withArgument_follows hc (by simp [vocabulary]) (List.mem_singleton_self n)
  | char length? =>
    cases length? with
    | none => exact follows_fixed (by simp [postgres, vocabulary])
    | some n => exact h.withArgument_follows hc (by simp [vocabulary]) (List.mem_singleton_self n)
  | decimal => exact follows_fixed (by simp [postgres, vocabulary])
  | decimalPrecision precision =>
    exact h.withArgument_follows hc (by simp [vocabulary]) (List.mem_singleton_self precision)
  | decimalScale precision scale =>
    apply withArguments_follows (by simp [vocabulary])
    . exact h.numeral hc (by simp [numerals])
    . exact h.numeral hc (by simp [numerals])
  | enumeration first others =>
    obtain ⟨henum, hargs⟩ := h.enumeration
    have hwidth : Bare .postgres m (Text.ofNat (widthFor c.typeArgs)) := .width hc henum rfl
    rw [hargs, widthFor, List.foldl_map] at hwidth
    exact withArgument_follows (by simp [vocabulary]) (writes_word hwidth)
  | plain type => exact follows_fixed (plain_mem_vocabulary .postgres type)

theorem mysql_follows (hc : c ∈ m.columns) (h : Fits c type) :
    Follows .mysql m type.mysql [] type.members := by
  cases type with
  | varChar length? =>
    apply withArgument_follows (by simp [vocabulary])
    cases length? with
    | none => exact writes_word (.fixed (by simp [vocabulary]))
    | some n => exact writes_word (h.numeral hc (List.mem_singleton_self n))
  | char length? =>
    apply withArgument_follows (by simp [vocabulary])
    cases length? with
    | none => exact writes_word (.fixed (by simp [vocabulary]))
    | some n => exact writes_word (h.numeral hc (List.mem_singleton_self n))
  | decimal =>
    apply withArguments_follows (by simp [vocabulary])
    . exact .fixed (by simp [vocabulary])
    . exact .fixed (by simp [vocabulary])
  | decimalPrecision precision =>
    exact h.withArgument_follows hc (by simp [vocabulary]) (List.mem_singleton_self precision)
  | decimalScale precision scale =>
    apply withArguments_follows (by simp [vocabulary])
    . exact h.numeral hc (by simp [numerals])
    . exact h.numeral hc (by simp [numerals])
  | enumeration first others =>
    exact withArgument_follows (by simp [vocabulary]) (literals_writes first others)
  | plain type => exact follows_fixed (plain_mem_vocabulary .mysql type)

theorem sqlite_follows (type : ColumnType) : Follows .sqlite m type.sqlite [] [] := by
  apply follows_fixed
  cases type with
  | plain type => exact plain_mem_vocabulary .sqlite type
  | _ => simp [sqlite, vocabulary]

theorem render_follows (hc : c ∈ m.columns) (h : Fits c type) :
    Follows dialect m (type.render dialect) []
      (if dialect = .mysql then Sql.members c else []) := by
  cases dialect with
  | postgres => exact postgres_follows hc h
  | mysql =>
    rw [← h.members]
    exact mysql_follows hc h
  | sqlite => exact sqlite_follows type

end ColumnType

namespace Table

variable {type : ColumnType}

theorem Known.name_of_ofName? {name : Text} {known : Known} (h : Known.ofName? name = some known) :
    name = known.name := by
  have hname := List.find?_some h
  exact (beq_iff_eq.mp hname).symm

theorem stringDefaults_eq_nil {known : Known} (h : d.name = known.name) (hne : known ≠ .default) :
    stringDefaults d = [] := by
  rw [stringDefaults, if_neg]
  rw [h]
  cases known with
  | default => contradiction
  | _ => decide

theorem stringDefaults_singleton {v : Text} (hname : d.name = ascii "default")
    (hargs : d.args = [v]) :
    stringDefaults d =
      if !defaultKeywords.contains v.lower && !isNumericLiteral v then [v] else [] := by
  rw [stringDefaults, if_pos hname, hargs, List.filter_cons, List.filter_nil]

theorem booleanLiteral_mem (dialect : Dialect) (value : Bool) :
    booleanLiteral dialect value ∈ vocabulary := by
  cases dialect <;> cases value <;> simp [booleanLiteral, vocabulary]

theorem defaultValue_cases (dialect : Dialect) (v : Text) :
    (defaultKeywords.contains v.lower = true ∧ defaultValue dialect v ∈ vocabulary) ∨
      defaultKeywords.contains v.lower = false ∧
        (isNumericLiteral v = true ∧ defaultValue dialect v = v ∨
          isNumericLiteral v = false ∧ defaultValue dialect v = quoteLiteral v) := by
  unfold defaultValue
  dsimp only
  split
  . next hnow =>
    left
    simp [defaultKeywords, beq_iff_eq.mp hnow, vocabulary]
  split
  . next htrue =>
    left
    exact ⟨by simp [defaultKeywords, beq_iff_eq.mp htrue], booleanLiteral_mem dialect true⟩
  split
  . next hfalse =>
    left
    exact ⟨by simp [defaultKeywords, beq_iff_eq.mp hfalse], booleanLiteral_mem dialect false⟩
  . right
    constructor
    . simp_all [defaultKeywords]
    . split
      . next hnumeric => exact Or.inl ⟨hnumeric, rfl⟩
      . next hnumeric => exact Or.inr ⟨Bool.eq_false_iff.mpr hnumeric, rfl⟩

theorem defaultValue_writes (hc : c ∈ m.columns) (hd : d ∈ c.decorators)
    (hname : d.name = ascii "default") {v : Text} (hargs : d.args = [v]) :
    Writes dialect m (defaultValue dialect v) [] (stringDefaults d) := by
  rw [stringDefaults_singleton hname hargs]
  obtain ⟨hkeyword, hfixed⟩ | ⟨hkeyword, ⟨hnumeric, hvalue⟩ | ⟨hnumeric, hvalue⟩⟩ :=
    defaultValue_cases dialect v
  . rw [hkeyword]
    exact writes_word (.fixed hfixed)
  . rw [hkeyword, hnumeric, hvalue]
    have hv : v ∈ d.args := hargs ▸ List.mem_singleton_self v
    exact writes_word (.default hc hd hname hv hnumeric)
  . rw [hkeyword, hnumeric, hvalue]
    exact writes_literal dialect m v

theorem primaryKey_mem (dialect : Dialect) (c : Column) :
    primaryKey dialect c ∈ vocabulary := by
  unfold primaryKey
  split <;> simp [vocabulary]

theorem args_of_decoratorFault? (h : decoratorFault? d = none)
    (hname : Known.ofName? d.name = some .default) : ∃ v, d.args = [v] := by
  unfold decoratorFault? at h
  rw [hname] at h
  simp only [Known.takesArgument, ↓reduceIte] at h
  split at h
  . next hlength => exact List.length_eq_one_iff.mp hlength
  . contradiction

theorem space_primaryKey_follows (c : Column) :
    Follows dialect m (byte ' ' :: primaryKey dialect c) [] [] :=
  Follows.fixed_append (w := [byte ' ']) (by simp [vocabulary])
    (writes_word (.fixed (primaryKey_mem dialect c)))

theorem clause_follows (hc : c ∈ m.columns) (hd : d ∈ c.decorators)
    (hfault : decoratorFault? d = none) :
    Follows dialect m (clause dialect c d) [] (stringDefaults d) := by
  unfold clause
  cases hknown : Known.ofName? d.name with
  | none =>
    unfold decoratorFault? at hfault
    rw [hknown] at hfault
    contradiction
  | some known =>
    have hname := Known.name_of_ofName? hknown
    cases known with
    | primaryKey =>
      rw [stringDefaults_eq_nil hname nofun]
      dsimp only
      split
      . exact follows_nil
      . exact space_primaryKey_follows c
    | unique =>
      rw [stringDefaults_eq_nil hname nofun]
      exact follows_fixed (by simp [vocabulary])
    | notNull =>
      rw [stringDefaults_eq_nil hname nofun]
      exact follows_fixed (by simp [vocabulary])
    | default =>
      obtain ⟨v, hargs⟩ := args_of_decoratorFault? hfault hknown
      rw [hargs]
      exact Follows.fixed_append (by simp [vocabulary]) (defaultValue_writes hc hd hname hargs)
    | reference =>
      rw [stringDefaults_eq_nil hname nofun]
      exact follows_nil
    | onDelete =>
      rw [stringDefaults_eq_nil hname nofun]
      exact follows_nil

theorem clauses_follows (hc : c ∈ m.columns) {ds : List Decorator}
    (hds : ∀ d ∈ ds, d ∈ c.decorators ∧ decoratorFault? d = none) :
    Follows dialect m (ds.flatMap (clause dialect c)) [] (ds.flatMap stringDefaults) := by
  induction ds with
  | nil => exact follows_nil
  | cons d ds ih =>
    obtain ⟨hd, hfault⟩ := hds d (List.mem_cons_self ..)
    have hrest := ih fun d' hd' => hds d' (List.mem_cons_of_mem _ hd')
    exact (clause_follows hc hd hfault).append hrest

theorem check_eq_nil (h : type.members = []) (column : Text) : type.check dialect column = [] := by
  unfold ColumnType.check
  split
  . rfl
  . cases h
  . rfl

theorem membership_follows (first : Text) (others : List Text) :
    Follows dialect m (ascii " IN (" ++ (literals (first :: others) ++ ascii "))"))
      [] (first :: others) := by
  have hmembers : Writes dialect m (literals (first :: others) ++ ascii "))") _ _ :=
    (ColumnType.literals_writes first others).append (follows_fixed (by simp [vocabulary]))
  have h := Follows.fixed_append (w := ascii " IN (") (by simp [vocabulary]) hmembers
  simpa using h

theorem enumeration_check_follows (name first : Text) (others : List Text) :
    Follows dialect m
      (ascii " CHECK (" ++ enclose dialect.quoteByte name ++ ascii " IN (" ++
        literals (first :: others) ++ ascii "))")
      [name] (first :: others) := by
  have hname := (writes_identifier dialect m name).append (membership_follows first others)
  have h := Follows.fixed_append (w := ascii " CHECK (") (by simp [vocabulary]) hname
  simpa using h

theorem check_follows (h : ColumnType.Fits c type) :
    Follows dialect m (type.check dialect (enclose dialect.quoteByte c.name))
      (if IsEnumeration c ∧ dialect ≠ .mysql then [c.name] else [])
      (if dialect = .mysql then [] else members c) := by
  cases hmembers : type.members with
  | nil =>
    have henum : ¬ IsEnumeration c := fun henum => h.ne_nil henum hmembers
    rw [check_eq_nil hmembers, ← h.members, hmembers, if_neg (henum ·.1), ite_self]
    exact follows_nil
  | cons first others =>
    cases type with
    | enumeration first others =>
      rw [← h.members]
      cases dialect with
      | mysql =>
        rw [if_neg fun hand => hand.2 rfl]
        exact follows_nil
      | postgres =>
        rw [if_pos ⟨h.enumeration.1, nofun⟩]
        exact enumeration_check_follows c.name first others
      | sqlite =>
        rw [if_pos ⟨h.enumeration.1, nofun⟩]
        exact enumeration_check_follows c.name first others
    | _ => contradiction

theorem lastClause_follows (c : Column) : Follows dialect m (lastClause dialect c) [] [] := by
  unfold lastClause
  split
  . exact space_primaryKey_follows c
  . exact follows_nil

theorem quoted_ok {role name quotedName : Text}
    (h : quoted dialect role name = .ok quotedName) :
    quotedName = enclose dialect.quoteByte name := by
  unfold quoted quoteIdentifier at h
  rw [mapError_eq_ok] at h
  split at h
  . contradiction
  . cases h
    rfl

theorem decoratorFault?_of_mem (h : decoratorsFault? c = none) (hd : d ∈ c.decorators) :
    decoratorFault? d = none := by
  unfold decoratorsFault? at h
  split at h
  . contradiction
  . next hfaults => exact List.findSome?_eq_none_iff.mp hfaults d hd

/-- Behind a type that is admitted, the check for an enumeration finds its members again. -/
theorem memberCheck_eq {name : Text} (htype : ColumnType.ofColumn c = .ok type)
    (hname : quoted dialect (ascii "column name") c.name = .ok name) :
    memberCheck dialect m c = .ok (type.check dialect name) := by
  have hfits := ColumnType.ofColumn_ok htype
  unfold memberCheck
  by_cases henum : IsEnumeration c
  . have hhas : hasType c ["Enum"] = true := by
      rw [hasType, henum]
      decide
    have hmembers := hfits.members
    rw [members, if_pos henum] at hmembers
    cases type with
    | enumeration first others =>
      have hargs : enumerationMembers c = .ok (first :: others) := by
        rw [enumerationMembers, ← hmembers]
        rfl
      rw [hhas, hname, hargs]
      cases dialect with
      | postgres | mysql | sqlite => rfl
    | _ => exact absurd rfl (hfits.ne_nil henum)
  . have hhas : hasType c ["Enum"] = false := by
      rw [hasType, List.any_cons, List.any_nil, Bool.or_false, beq_eq_false_iff_ne]
      exact Ne.symm henum
    have hnil : type.members = [] := by
      rw [hfits.members, members, if_neg henum]
    rw [hhas, Bool.and_false, check_eq_nil hnil]
    rfl

/-- The definition of a column, apart from what its dialect has to say about the type. -/
theorem definition_eq (dialect : Dialect) (m : Model) (c : Column) :
    definition dialect m c = do
      let type ← inColumn m c (ColumnType.ofColumn c)
      let name ← quoted dialect (ascii "column name") c.name
      return name ++ byte ' ' :: type.render dialect ++ c.decorators.flatMap (clause dialect c) ++
        type.check dialect name ++ lastClause dialect c := by
  unfold definition
  rw [ColumnType.columnType_eq]
  cases htype : ColumnType.ofColumn c with
  | error fault => rfl
  | ok type =>
    cases hname : quoted dialect (ascii "column name") c.name with
    | error e => rfl
    | ok name =>
      rw [memberCheck_eq htype hname]
      rfl

theorem definition_writes (hc : c ∈ m.columns) (hfault : decoratorsFault? c = none) {text : Text}
    (h : definition dialect m c = .ok text) :
    Writes dialect m text (columnIdentifiers dialect c) (columnLiterals dialect c) := by
  rw [definition_eq] at h
  obtain ⟨type, htype, h⟩ := bind_eq_ok.mp h
  obtain ⟨name, hname, h⟩ := bind_eq_ok.mp h
  cases h
  cases quoted_ok hname
  have hfits := ColumnType.ofColumn_ok (mapError_eq_ok.mp htype)
  have htyped : Follows dialect m (byte ' ' :: type.render dialect) [] _ :=
    Follows.fixed_append (w := [byte ' ']) (by simp [vocabulary])
      (ColumnType.render_follows hc hfits).1
  have hclauses : Follows dialect m (c.decorators.flatMap (clause dialect c)) [] _ :=
    clauses_follows hc fun d hd => ⟨hd, decoratorFault?_of_mem hfault hd⟩
  have hcheck := htyped.append hclauses |>.append (check_follows hfits)
  have hwrites := (writes_identifier dialect m c.name).append
    (hcheck.append (lastClause_follows c))
  have hidentifiers : columnIdentifiers dialect c = [c.name] ++
      ([] ++ [] ++ (if IsEnumeration c ∧ dialect ≠ .mysql then [c.name] else []) ++ []) := by
    unfold columnIdentifiers
    split <;> simp
  -- In MySQL the members are part of the type, and otherwise part of the check behind the clauses.
  have hliterals : columnLiterals dialect c =
      [] ++ ((if dialect = .mysql then members c else []) ++ c.decorators.flatMap stringDefaults ++
        (if dialect = .mysql then [] else members c) ++ []) := by
    unfold columnLiterals
    split <;> simp
  rw [hidentifiers, hliterals]
  simpa using hwrites

theorem referenceParts?_eq_some {target table column : Text}
    (h : referenceParts? target = some (table, column)) :
    target.splitFirst (· == byte '.') = (table, some column) := by
  unfold referenceParts? at h
  split at h
  . contradiction
  . next hsplit =>
    split at h
    . contradiction
    . cases h
      exact hsplit

theorem onDelete_follows (dialect : Dialect) (m : Model) (action? : Option Action) :
    Follows dialect m
      (match action? with
        | some action => ascii " ON DELETE " ++ action.name
        | none => [])
      [] [] := by
  cases action? with
  | none => exact follows_nil
  | some action =>
    have haction : action.name ∈ vocabulary := by
      cases action <;> simp [Action.name, vocabulary]
    exact Follows.fixed_append (by simp [vocabulary]) (writes_word (.fixed haction))

theorem argument?_reference (c : Column) :
    argument? c .reference = (c.decorator? (ascii "ref")).bind (·.args.head?) := by
  unfold argument?
  rw [show Known.reference.name = ascii "ref" from rfl]
  cases c.decorator? (ascii "ref") with
  | none => rfl
  | some d => rfl

theorem foreignKey_writes {target text : Text} (htarget : argument? c .reference = some target)
    (h : foreignKey dialect m c target = .ok text) :
    Writes dialect m text (referenceIdentifiers c) [] := by
  unfold foreignKey at h
  split at h
  . contradiction
  . next table column hparts =>
    obtain ⟨_, hcolumn, h⟩ := bind_eq_ok.mp h
    obtain ⟨_, htable, h⟩ := bind_eq_ok.mp h
    obtain ⟨_, hname, h⟩ := bind_eq_ok.mp h
    cases quoted_ok hcolumn
    cases quoted_ok htable
    cases quoted_ok hname
    cases h
    have hidentifiers : referenceIdentifiers c = [c.name, table, column] := by
      rw [referenceIdentifiers, ← argument?_reference, htarget]
      simp [referenceParts?_eq_some hparts]
    have hend := Follows.fixed_append (w := [byte ')']) (by simp [vocabulary])
      (onDelete_follows dialect m ((argument? c .onDelete).bind Action.ofText?)).1
    have hcolumn := Follows.fixed_append (w := [byte '(']) (by simp [vocabulary])
      ((writes_identifier dialect m column).append hend)
    have htable := Follows.fixed_append (w := ascii ") REFERENCES ") (by simp [vocabulary])
      ((writes_identifier dialect m table).append hcolumn)
    have hname := Follows.fixed_append (w := ascii "FOREIGN KEY (") (by simp [vocabulary])
      ((writes_identifier dialect m c.name).append htable)
    rw [hidentifiers]
    simp only [List.append_assoc, List.cons_append, List.nil_append, List.append_nil] at hname ⊢
    exact hname.1

inductive WritesEach (dialect : Dialect) (m : Model) : List Text → List Text → List Text → Prop
  | nil : WritesEach dialect m [] [] []
  | cons {t : Text} {ts identifiers identifiers' literals literals' : List Text}
    (h : Writes dialect m t identifiers literals)
    (hrest : WritesEach dialect m ts identifiers' literals') :
    WritesEach dialect m (t :: ts) (identifiers ++ identifiers') (literals ++ literals')

variable {ts ts' identifiers identifiers' literals literals' : List Text}

theorem WritesEach.append (h : WritesEach dialect m ts identifiers literals)
    (h' : WritesEach dialect m ts' identifiers' literals') :
    WritesEach dialect m (ts ++ ts') (identifiers ++ identifiers') (literals ++ literals') := by
  induction h with
  | nil => exact h'
  | cons h _ ih =>
    rw [List.append_assoc, List.append_assoc]
    exact .cons h ih

theorem lines_follows (h : WritesEach dialect m ts identifiers literals) (hne : ts ≠ []) :
    Follows dialect m (Text.join (ascii ",\n") (ts.map (ascii "  " ++ ·)) ++ [byte '\n'])
      identifiers literals := by
  induction h with
  | nil => contradiction
  | cons ht hrest ih =>
    cases hrest with
    | nil =>
      have hline := ht.append (follows_fixed (w := [byte '\n']) (by simp [vocabulary]))
      have h := Follows.fixed_append (w := ascii "  ") (by simp [vocabulary]) hline
      simpa [Text.join] using h
    | cons hnext hrest =>
      have hlines := Follows.fixed_append (w := ascii ",\n") (by simp [vocabulary])
        (ih (List.cons_ne_nil _ _)).1
      have h := Follows.fixed_append (w := ascii "  ") (by simp [vocabulary]) (ht.append hlines)
      simpa [Text.join] using h

theorem body_follows (h : WritesEach dialect m ts identifiers literals) :
    Follows dialect m (body ts) identifiers literals := by
  cases h with
  | nil => exact follows_nil
  | cons ht hrest => exact lines_follows (.cons ht hrest) (List.cons_ne_nil _ _)

theorem columnParts_ok (hc : c ∈ m.columns) {part : Text × Option Text}
    (h : columnParts dialect m c = .ok part) :
    Writes dialect m part.1 (columnIdentifiers dialect c) (columnLiterals dialect c) ∧
      WritesEach dialect m part.2.toList (referenceIdentifiers c) [] := by
  unfold columnParts at h
  split at h
  . contradiction
  . next hfault =>
    obtain ⟨text, hdefinition, h⟩ := bind_eq_ok.mp h
    have hwrites := definition_writes hc hfault hdefinition
    split at h
    . next hnone =>
      cases h
      rw [referenceIdentifiers, ← argument?_reference, hnone]
      exact ⟨hwrites, .nil⟩
    . next target htarget =>
      obtain ⟨key, hkey, h⟩ := bind_eq_ok.mp h
      cases h
      have heach := WritesEach.cons (foreignKey_writes htarget hkey) .nil
      rw [List.append_nil] at heach
      exact ⟨hwrites, heach⟩

theorem columns_each {columns : List Column} {parts : List (Text × Option Text)}
    (hcolumns : ∀ c ∈ columns, c ∈ m.columns)
    (h : List.Forall₂ (fun c part => columnParts dialect m c = .ok part) columns parts) :
    WritesEach dialect m (parts.map (·.1)) (columns.flatMap (columnIdentifiers dialect))
        (columns.flatMap (columnLiterals dialect)) ∧
      WritesEach dialect m (parts.filterMap (·.2)) (columns.flatMap referenceIdentifiers) [] := by
  induction h with
  | nil => exact ⟨.nil, .nil⟩
  | @cons c part columns parts hpart _ ih =>
    obtain ⟨hdefinition, hkey⟩ := columnParts_ok (hcolumns c (List.mem_cons_self ..)) hpart
    obtain ⟨hdefinitions, hkeys⟩ := ih fun c hc => hcolumns c (List.mem_cons_of_mem _ hc)
    refine ⟨.cons hdefinition hdefinitions, ?_⟩
    rw [filterMap_cons_eq_append]
    exact hkey.append hkeys

theorem suffix_mem (dialect : Dialect) : suffix dialect ∈ vocabulary := by
  cases dialect <;> simp [suffix, vocabulary]

theorem create_writes {text : Text} (h : create dialect m = .ok text) :
    Writes dialect m text (tableIdentifiers dialect m) (tableLiterals dialect m) := by
  unfold create at h
  obtain ⟨table, htable, h⟩ := bind_eq_ok.mp h
  obtain ⟨parts, hparts, h⟩ := bind_eq_ok.mp h
  cases quoted_ok htable
  cases h
  obtain ⟨hdefinitions, hkeys⟩ := columns_each (fun _ hc => hc) (forall₂_of_mapM_ok hparts)
  have hsuffix : Writes dialect m (suffix dialect) [] [] := (follows_fixed (suffix_mem dialect)).1
  have hend := Follows.fixed_append (w := [byte ')']) (by simp [vocabulary]) hsuffix
  have hbody := (body_follows (hdefinitions.append hkeys)).append hend
  have hopen := Follows.fixed_append (w := ascii " (\n") (by simp [vocabulary]) hbody.1
  have hall := Follows.fixed_append (w := ascii "CREATE TABLE ") (by simp [vocabulary])
    ((writes_identifier dialect m m.name).append hopen)
  simpa [tableIdentifiers, tableLiterals] using hall.1

end Table

/--
The statements for the models end outside of quotes. In quotes they have exactly the names and
values of the model, and outside of quotes they have of the model at most numbers.
-/
theorem up_scans {dialect : Dialect} {s : Schema} {statements : List Text}
    (h : up dialect s = .ok statements) :
    ∃ tables, statements = tables ++ s.rawSql ∧
      List.Forall₂ (fun m sql => ∃ tokens, Scanner.scan dialect.quoteByte sql = some tokens ∧
        Token.contents .identifier tokens = tableIdentifiers dialect m ∧
        Token.contents .literal tokens = tableLiterals dialect m ∧
        ∃ words : List Text, Token.outside tokens = words.flatten ∧
          ∀ w ∈ words, Bare dialect m w) s.models tables := by
  unfold up at h
  obtain ⟨tables, htables, h⟩ := bind_eq_ok.mp h
  cases h
  refine ⟨tables, rfl, ?_⟩
  apply (forall₂_of_mapM_ok htables).imp
  intro m sql hcreate
  obtain ⟨tokens, hreads, hidentifiers, hliterals, houtside⟩ := Table.create_writes hcreate
  exact ⟨tokens, Scanner.scan_eq_some hreads, hidentifiers, hliterals, houtside⟩

/-- Apostrophes and a backslash in values, and a raw statement that ends inside quotes. -/
theorem up_scans_apostrophes :
    let s : Schema := ⟨
      [⟨ascii "bill-2.0", [
        ⟨ascii "state", ascii "Enum", ⟨true, [ascii "it's", ascii "\\"]⟩,
          [⟨ascii "default", ⟨true, [ascii "it's"]⟩⟩]⟩,
        ⟨ascii "tax", ascii "Decimal", ⟨true, [ascii "8"]⟩,
          [⟨ascii "default", ⟨true, [ascii "-1.5"]⟩⟩, ⟨ascii "ref", ⟨true, [ascii "acc-t.id"]⟩⟩,
            ⟨ascii "onDelete", ⟨true, [ascii "Cascade"]⟩⟩]⟩]⟩],
      [ascii "select '"]⟩
    ∃ sql tokens, up .postgres s = .ok [sql, ascii "select '"] ∧
      Scanner.scan Dialect.postgres.quoteByte sql = some tokens ∧
      Token.contents .identifier tokens =
        [ascii "bill-2.0", ascii "state", ascii "state", ascii "tax", ascii "tax", ascii "acc-t",
          ascii "id"] ∧
      Token.contents .literal tokens = [ascii "it's", ascii "it's", ascii "\\"] := by
  intro s
  obtain ⟨sql, h⟩ : ∃ sql, up .postgres s = .ok [sql, ascii "select '"] := ⟨_, rfl⟩
  obtain ⟨tables, htables, hscans⟩ := up_scans h
  have htables : [sql] ++ s.rawSql = tables ++ s.rawSql := htables
  cases List.append_cancel_right htables
  obtain ⟨tokens, hscan, hidentifiers, hliterals, _⟩ := (List.forall₂_cons.mp hscans).1
  refine ⟨sql, tokens, h, hscan, ?_, ?_⟩
  . rw [hidentifiers]
    decide +kernel
  . rw [hliterals]
    decide +kernel

end SchemaMigration.Sql
