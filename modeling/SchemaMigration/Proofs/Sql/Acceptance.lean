import SchemaMigration.Proofs.Sql.Quoting

/-!
This module contains which schemas the dialects accept. What is demanded of a schema is the same in
all dialects but for the length of names, and a schema with short names is refused by all of them
for the same reason.
-/

namespace SchemaMigration.Sql

open Schema (Column Decorator Model ScalarType)

structure IsName (limit : Nat) (name : Text) : Prop where
  start : ∃ b rest, name = b :: rest ∧ Byte.isWordStart b
  bytes : ∀ b ∈ name, Byte.isWordPart b ∨ b = byte '.' ∨ b = byte '-'
  length_le : name.length ≤ limit

structure Divides (target table column : Text) : Prop where
  eq : target = table ++ byte '.' :: column
  table : byte '.' ∉ table
  column : byte '.' ∉ column

/-- A column references a column of a table; only its first reference counts. -/
def References (c : Column) (table column : Text) : Prop :=
  ∃ target, (c.decorator? (ascii "ref")).bind (·.args.head?) = some target ∧
    Divides target table column

def ValidDecorator (d : Decorator) : Prop :=
  (d.name ∈ [ascii "default", ascii "ref", ascii "onDelete"] ∧ d.args.length = 1) ∨
    (d.name ∈ [ascii "pk", ascii "unique", ascii "notnull"] ∧ d.arguments.written = false)

def ValidType (c : Column) : Prop :=
  if c.type = ascii "VarChar" ∨ c.type = ascii "Char" then
    c.typeArgs.length ≤ 1 ∧ ∀ arg ∈ c.typeArgs, isUnsignedInteger arg
  else if c.type = ascii "Decimal" ∨ c.type = ascii "Numeric" then
    c.typeArgs.length ≤ 2 ∧ ∀ arg ∈ c.typeArgs, isUnsignedInteger arg
  else if c.type = ascii "Enum" then
    c.typeArgs ≠ []
  else
    (∃ type : ScalarType, c.type = type.name) ∧ c.typeArgs = []

structure ValidColumn (limit : Nat) (c : Column) : Prop where
  name : IsName limit c.name
  type : ValidType c
  decorators : ∀ d ∈ c.decorators, ValidDecorator d
  reference : ∀ d, c.decorator? (ascii "ref") = some d →
    ∃ table column, References c table column ∧ IsName limit table ∧ IsName limit column
  onDelete : ∀ d, c.decorator? (ascii "onDelete") = some d →
    (∃ reference, c.decorator? (ascii "ref") = some reference) ∧
      ∃ action ∈ d.args.head?, (Action.ofText? action).isSome

structure ValidModel (limit : Nat) (m : Model) : Prop where
  name : IsName limit m.name
  columns : ∀ c ∈ m.columns, ValidColumn limit c

inductive Mentions (m : Model) : Text → Prop
  | table : Mentions m m.name
  | column {c : Column} (hc : c ∈ m.columns) : Mentions m c.name
  | referencedTable {c : Column} {table column : Text} (hc : c ∈ m.columns)
    (h : References c table column) : Mentions m table
  | referencedColumn {c : Column} {table column : Text} (hc : c ∈ m.columns)
    (h : References c table column) : Mentions m column

theorem IsName.ne_nil {limit : Nat} {name : Text} (h : IsName limit name) : name ≠ [] := by
  obtain ⟨b, rest, rfl, _⟩ := h.start
  exact List.cons_ne_nil b rest

section Longer

variable {limit limit' : Nat}

theorem IsName.mono {name : Text} (h : IsName limit name) (hle : limit ≤ limit') :
    IsName limit' name :=
  ⟨h.start, h.bytes, Nat.le_trans h.length_le hle⟩

theorem ValidColumn.mono {c : Column} (h : ValidColumn limit c) (hle : limit ≤ limit') :
    ValidColumn limit' c where
  name := h.name.mono hle
  type := h.type
  decorators := h.decorators
  reference d hd := by
    obtain ⟨table, column, hreferences, htable, hcolumn⟩ := h.reference d hd
    exact ⟨table, column, hreferences, htable.mono hle, hcolumn.mono hle⟩
  onDelete := h.onDelete

theorem ValidModel.mono {m : Model} (h : ValidModel limit m) (hle : limit ≤ limit') :
    ValidModel limit' m :=
  ⟨h.name.mono hle, fun c hc => (h.columns c hc).mono hle⟩

end Longer

variable {dialect : Dialect} {m : Model} {c : Column} {d : Decorator}

theorem isIdentifierByte_iff {b : UInt8} :
    isIdentifierByte b = true ↔ Byte.isWordPart b ∨ b = byte '.' ∨ b = byte '-' := by
  simp [isIdentifierByte, or_assoc]

theorem identifierFault?_eq_none_iff {limit : Nat} {name : Text} :
    identifierFault? limit name = none ↔ IsName limit name := by
  cases name with
  | nil =>
    constructor
    . intro h
      cases h
    . rintro ⟨⟨b, rest, hname, _⟩, _, _⟩
      cases hname
  | cons b rest =>
    constructor
    . intro h
      simp only [identifierFault?] at h
      split at h
      . cases h
      . next hstart =>
        split at h
        . cases h
        . next hbytes =>
          split at h
          . cases h
          . next hlength =>
            refine ⟨⟨b, rest, rfl, by simpa using hstart⟩, ?_, by omega⟩
            simpa only [Bool.not_eq_true', Bool.not_eq_false, List.all_eq_true,
              isIdentifierByte_iff] using hbytes
    . rintro ⟨⟨_, _, heq, hstart⟩, hbytes, hlength⟩
      cases heq
      have hall : (b :: rest).all isIdentifierByte = true :=
        List.all_eq_true.mpr fun b hb => isIdentifierByte_iff.mpr (hbytes b hb)
      simp only [identifierFault?, hstart, hall, Bool.not_true, Bool.false_eq_true, if_false]
      rw [if_neg (by omega)]

namespace ColumnType

theorem exists_lengthArgument?_ok_iff :
    (∃ length?, lengthArgument? c = .ok length?) ↔
      c.typeArgs.length ≤ 1 ∧ ∀ arg ∈ c.typeArgs, isUnsignedInteger arg := by
  unfold lengthArgument?
  split
  . next hargs => simp [hargs]
  . next arg hargs =>
    rw [hargs]
    split
    . next hdigits => simp [hdigits]
    . next hdigits => simp [hdigits]
  . next hnil hsingle =>
    constructor
    . rintro ⟨_, h⟩
      cases h
    . rintro ⟨hlength, _⟩
      match hargs : c.typeArgs with
      | [] => exact absurd hargs hnil
      | [arg] => exact absurd hargs (hsingle arg)
      | _ :: _ :: _ => simp [hargs] at hlength

theorem exists_decimalOf_ok_iff :
    (∃ type, decimalOf c = .ok type) ↔
      c.typeArgs.length ≤ 2 ∧ ∀ arg ∈ c.typeArgs, isUnsignedInteger arg := by
  unfold decimalOf
  split
  . next hlength =>
    constructor
    . rintro ⟨_, h⟩
      cases h
    . rintro ⟨hle, _⟩
      omega
  . next hlength =>
    split
    . next arg hfind =>
      have harg : isUnsignedInteger arg = false := by simpa using List.find?_some hfind
      constructor
      . rintro ⟨_, h⟩
        cases h
      . rintro ⟨_, hall⟩
        rw [hall arg (List.mem_of_find?_eq_some hfind)] at harg
        cases harg
    . next hnone =>
      have hall : ∀ arg ∈ c.typeArgs, isUnsignedInteger arg := by simpa using hnone
      refine ⟨fun _ => ⟨by omega, hall⟩, fun _ => ?_⟩
      split
      . exact ⟨_, rfl⟩
      . exact ⟨_, rfl⟩
      . exact ⟨_, rfl⟩

theorem exists_enumerationOf_ok_iff :
    (∃ type, enumerationOf c = .ok type) ↔ c.typeArgs ≠ [] := by
  unfold enumerationOf
  split
  . next hargs => simp [hargs]
  . next hargs => simp [hargs]

theorem exists_plainOf_ok_iff {type? : Option PlainType} :
    (∃ type, plainOf c type? = .ok type) ↔ type?.isSome ∧ c.typeArgs = [] := by
  unfold plainOf
  split
  . next hargs =>
    rw [List.isEmpty_iff] at hargs
    cases type? with
    | none => simp
    | some type => simp [hargs]
  . next hargs =>
    rw [List.isEmpty_iff] at hargs
    simp [hargs]

theorem exists_ofColumn_ok_iff : (∃ type, ofColumn c = .ok type) ↔ ValidType c := by
  unfold ofColumn ValidType
  cases htype : ScalarType.ofName? c.type with
  | none =>
    have hne : ∀ type : ScalarType, c.type ≠ type.name := by
      intro type heq
      rw [heq, ofName?_name] at htype
      cases htype
    have hlength : ¬(c.type = ascii "VarChar" ∨ c.type = ascii "Char") :=
      not_or.mpr ⟨hne .varChar, hne .char⟩
    have hdecimal : ¬(c.type = ascii "Decimal" ∨ c.type = ascii "Numeric") :=
      not_or.mpr ⟨hne .decimal, hne .numeric⟩
    have henumeration : c.type ≠ ascii "Enum" := hne .enumeration
    rw [if_neg hlength, if_neg hdecimal, if_neg henumeration]
    simp [exists_plainOf_ok_iff, hne]
  | some type =>
    have hname := name_of_ofName? htype
    rw [hname]
    cases type with
    | varChar =>
      rw [if_pos (by decide), ← exists_lengthArgument?_ok_iff]
      exact exists_map_ok_iff
    | char =>
      rw [if_pos (by decide), ← exists_lengthArgument?_ok_iff]
      exact exists_map_ok_iff
    | decimal | numeric =>
      rw [if_neg (by decide), if_pos (by decide)]
      exact exists_decimalOf_ok_iff
    | enumeration =>
      rw [if_neg (by decide), if_neg (by decide), if_pos (by decide)]
      exact exists_enumerationOf_ok_iff
    | _ =>
      rw [if_neg (by decide), if_neg (by decide), if_neg (by decide), exists_plainOf_ok_iff]
      exact and_congr_left fun _ => ⟨fun _ => ⟨_, rfl⟩, fun _ => rfl⟩

end ColumnType

namespace Table

theorem exists_quoted_ok_iff (role : Text) {name : Text} :
    (∃ quotedName, quoted dialect role name = .ok quotedName) ↔
      IsName dialect.maxIdentifierLength name := by
  unfold quoted
  simp only [mapError_eq_ok, ← identifierFault?_eq_none_iff]
  unfold quoteIdentifier
  split
  . next hfault => simp [hfault]
  . next hfault => simp [hfault]

theorem Known.ofName?_name (known : Known) : Known.ofName? known.name = some known := by
  cases known <;> decide

theorem Known.takesArgument_iff (known : Known) :
    known.takesArgument = true ↔
      known.name ∈ [ascii "default", ascii "ref", ascii "onDelete"] := by
  cases known <;> decide

theorem Known.not_takesArgument_iff (known : Known) :
    known.takesArgument = false ↔ known.name ∈ [ascii "pk", ascii "unique", ascii "notnull"] := by
  cases known <;> decide

theorem decoratorFault?_eq_none_iff : decoratorFault? d = none ↔ ValidDecorator d := by
  unfold decoratorFault? ValidDecorator
  cases hknown : Known.ofName? d.name with
  | none =>
    have hne : ∀ known : Known, d.name ≠ known.name := by
      intro known heq
      rw [heq, Known.ofName?_name] at hknown
      cases hknown
    have hwith : d.name ∉ [ascii "default", ascii "ref", ascii "onDelete"] := by
      simpa using ⟨hne .default, hne .reference, hne .onDelete⟩
    have hwithout : d.name ∉ [ascii "pk", ascii "unique", ascii "notnull"] := by
      simpa using ⟨hne .primaryKey, hne .unique, hne .notNull⟩
    simp only [hwith, hwithout, false_and, or_self, reduceCtorEq]
  | some known =>
    rw [Known.name_of_ofName? hknown, ← Known.takesArgument_iff, ← Known.not_takesArgument_iff]
    dsimp only
    cases known.takesArgument with
    | true => simp
    | false => simp

theorem decorator?_eq_some {name : Text} (h : c.decorator? name = some d) :
    d ∈ c.decorators ∧ d.name = name := by
  have hname := List.find?_some h
  exact ⟨List.mem_of_find?_eq_some h, beq_iff_eq.mp hname⟩

/-- A valid decorator that takes an argument has one. -/
theorem exists_argument (known : Known) (hvalid : ∀ d ∈ c.decorators, ValidDecorator d)
    (htakes : known.takesArgument = true) (hd : c.decorator? known.name = some d) :
    ∃ arg, d.args.head? = some arg := by
  obtain ⟨hmem, hname⟩ := decorator?_eq_some hd
  rcases hvalid d hmem with ⟨_, hone⟩ | ⟨hwithout, _⟩
  . obtain ⟨arg, hargs⟩ := List.length_eq_one_iff.mp hone
    exact ⟨arg, by rw [hargs, List.head?_cons]⟩
  . rw [hname, ← Known.not_takesArgument_iff, htakes] at hwithout
    cases hwithout

theorem onDeleteFault?_eq_none_iff (hvalid : ∀ d ∈ c.decorators, ValidDecorator d) :
    onDeleteFault? c = none ↔
      ∀ d, c.decorator? (ascii "onDelete") = some d →
        (∃ reference, c.decorator? (ascii "ref") = some reference) ∧
          ∃ action ∈ d.args.head?, (Action.ofText? action).isSome := by
  rw [show ascii "onDelete" = Known.onDelete.name from rfl,
    show ascii "ref" = Known.reference.name from rfl]
  unfold onDeleteFault? argument?
  cases hd : c.decorator? Known.onDelete.name with
  | none => simp
  | some d =>
    obtain ⟨action, haction⟩ := exists_argument .onDelete hvalid rfl hd
    cases hreference : c.decorator? Known.reference.name with
    | none => simp [haction]
    | some reference =>
      cases hnamed : Action.ofText? action with
      | none => simp [haction, hnamed]
      | some named => simp [haction, hnamed]

theorem decoratorsFault?_eq_none_iff :
    decoratorsFault? c = none ↔
      (∀ d ∈ c.decorators, decoratorFault? d = none) ∧ onDeleteFault? c = none := by
  rw [← List.findSome?_eq_none_iff]
  unfold decoratorsFault?
  cases c.decorators.findSome? decoratorFault? with
  | none => simp
  | some fault => simp

theorem referenceParts?_eq_some_iff {target table column : Text} :
    referenceParts? target = some (table, column) ↔
      Divides target table column ∧ table ≠ [] ∧ column ≠ [] := by
  constructor
  . intro h
    have hsplit := referenceParts?_eq_some h
    obtain ⟨dot, heq, hdot, htable⟩ := Text.splitFirst_eq_some hsplit
    cases beq_iff_eq.mp hdot
    simp only [referenceParts?, hsplit] at h
    split at h
    . cases h
    . next hparts =>
      simp only [Bool.or_eq_true, not_or, List.isEmpty_iff, List.any_eq_true, not_exists,
        beq_iff_eq, not_and] at hparts
      obtain ⟨⟨htable', hcolumn'⟩, hcolumn⟩ := hparts
      refine ⟨⟨heq, fun hmem => ?_, fun hmem => hcolumn _ hmem rfl⟩, htable', hcolumn'⟩
      simpa using htable _ hmem
  . rintro ⟨⟨rfl, htable, hcolumn⟩, htable', hcolumn'⟩
    have hsplit : Text.splitFirst (· == byte '.') (table ++ byte '.' :: column) =
        (table, some column) := by
      refine Text.splitFirst_append_cons (beq_self_eq_true _) fun b hb => ?_
      exact beq_eq_false_iff_ne.mpr fun heq => htable (heq ▸ hb)
    have hany : column.any (· == byte '.') = false := by
      simpa using fun b hb (heq : b = byte '.') => hcolumn (heq ▸ hb)
    simp [referenceParts?, hsplit, hany, htable', hcolumn']

theorem exists_foreignKey_ok_iff {target : Text} :
    (∃ key, foreignKey dialect m c target = .ok key) ↔
      IsName dialect.maxIdentifierLength c.name ∧
        ∃ table column, Divides target table column ∧
          IsName dialect.maxIdentifierLength table ∧
          IsName dialect.maxIdentifierLength column := by
  constructor
  . rintro ⟨key, h⟩
    unfold foreignKey at h
    split at h
    . cases h
    . next table column hparts =>
      obtain ⟨_, hcolumn, h⟩ := bind_eq_ok.mp h
      obtain ⟨_, htable, h⟩ := bind_eq_ok.mp h
      obtain ⟨_, hname, _⟩ := bind_eq_ok.mp h
      exact ⟨(exists_quoted_ok_iff _).mp ⟨_, hname⟩, table, column,
        (referenceParts?_eq_some_iff.mp hparts).1, (exists_quoted_ok_iff _).mp ⟨_, htable⟩,
        (exists_quoted_ok_iff _).mp ⟨_, hcolumn⟩⟩
  . rintro ⟨hname, table, column, hdivides, htable, hcolumn⟩
    have hparts := referenceParts?_eq_some_iff.mpr ⟨hdivides, htable.ne_nil, hcolumn.ne_nil⟩
    obtain ⟨_, hcolumn⟩ := (exists_quoted_ok_iff (ascii "referenced column")).mpr hcolumn
    obtain ⟨_, htable⟩ := (exists_quoted_ok_iff (ascii "referenced table")).mpr htable
    obtain ⟨_, hname⟩ := (exists_quoted_ok_iff (ascii "column name")).mpr hname
    simp only [foreignKey, hparts, hcolumn, htable, hname, ok_bind]
    exact ⟨_, rfl⟩

theorem exists_definition_ok_iff :
    (∃ text, definition dialect m c = .ok text) ↔
      ValidType c ∧ IsName dialect.maxIdentifierLength c.name := by
  rw [← ColumnType.exists_ofColumn_ok_iff, ← exists_quoted_ok_iff (ascii "column name")]
  rw [definition_eq]
  unfold inColumn
  simp only [exists_bind_ok_iff, mapError_eq_ok]
  constructor
  . rintro ⟨type, htype, name, hname, _⟩
    exact ⟨⟨type, htype⟩, name, hname⟩
  . rintro ⟨⟨type, htype⟩, name, hname⟩
    exact ⟨type, htype, name, hname, _, rfl⟩

theorem exists_columnParts_ok_iff :
    (∃ parts, columnParts dialect m c = .ok parts) ↔
      decoratorsFault? c = none ∧ (∃ text, definition dialect m c = .ok text) ∧
        ∀ target, argument? c .reference = some target →
          ∃ key, foreignKey dialect m c target = .ok key := by
  unfold columnParts
  cases decoratorsFault? c with
  | some fault => simp [inColumn, Except.mapError]
  | none =>
    dsimp only
    rw [exists_bind_ok_iff]
    cases argument? c .reference with
    | none => simp [pure, Except.pure]
    | some target => simp [exists_bind_ok_iff, pure, Except.pure]

theorem references_iff {target : Text} (h : argument? c .reference = some target)
    {table column : Text} : References c table column ↔ Divides target table column := by
  unfold References
  rw [← argument?_reference, h]
  simp

theorem validColumn_iff :
    ValidColumn dialect.maxIdentifierLength c ↔
      ∃ parts, columnParts dialect m c = .ok parts := by
  simp only [exists_columnParts_ok_iff, exists_definition_ok_iff, exists_foreignKey_ok_iff,
    decoratorsFault?_eq_none_iff, decoratorFault?_eq_none_iff]
  constructor
  . intro h
    refine ⟨⟨h.decorators, (onDeleteFault?_eq_none_iff h.decorators).mpr h.onDelete⟩,
      ⟨h.type, h.name⟩, fun target htarget => ⟨h.name, ?_⟩⟩
    obtain ⟨d, hd, _⟩ := Option.bind_eq_some_iff.mp (argument?_reference c ▸ htarget)
    obtain ⟨table, column, hreferences, htable, hcolumn⟩ := h.reference d hd
    exact ⟨table, column, (references_iff htarget).mp hreferences, htable, hcolumn⟩
  . rintro ⟨⟨hdecorators, honDelete⟩, ⟨htype, hname⟩, hkey⟩
    refine ⟨hname, htype, hdecorators, fun d hd => ?_,
      (onDeleteFault?_eq_none_iff hdecorators).mp honDelete⟩
    obtain ⟨target, htarget⟩ := exists_argument .reference hdecorators rfl hd
    have htarget : argument? c .reference = some target := by
      rw [argument?_reference, hd, Option.bind_some, htarget]
    obtain ⟨_, table, column, hdivides, htable, hcolumn⟩ := hkey target htarget
    exact ⟨table, column, (references_iff htarget).mpr hdivides, htable, hcolumn⟩

theorem validModel_iff :
    ValidModel dialect.maxIdentifierLength m ↔ ∃ text, create dialect m = .ok text := by
  unfold create
  simp only [exists_bind_ok_iff]
  constructor
  . rintro ⟨hname, hcolumns⟩
    obtain ⟨table, htable⟩ := (exists_quoted_ok_iff (ascii "table name")).mpr hname
    obtain ⟨parts, hparts⟩ := exists_mapM_ok_iff.mpr fun c hc =>
      validColumn_iff (m := m).mp (hcolumns c hc)
    exact ⟨table, htable, parts, hparts, _, rfl⟩
  . rintro ⟨table, htable, parts, hparts, _⟩
    exact ⟨(exists_quoted_ok_iff _).mp ⟨table, htable⟩, fun c hc =>
      validColumn_iff.mpr (exists_mapM_ok_iff.mp ⟨parts, hparts⟩ c hc)⟩

end Table

theorem exists_up_ok_iff {s : Schema} :
    (∃ statements, up dialect s = .ok statements) ↔
      ∀ m ∈ s.models, ValidModel dialect.maxIdentifierLength m := by
  simp only [Table.validModel_iff, ← exists_mapM_ok_iff]
  unfold up
  rw [exists_bind_ok_iff]
  simp [pure, Except.pure]

def CompileError.inDialect (dialect : Dialect) : CompileError → CompileError
  | .identifier e => .identifier { e with dialect }
  | .column model name fault => .column model name fault

/-- Two computations, the second in `dialect`, succeed both or fail for the same reason. -/
inductive Concurs (dialect : Dialect) {α : Type} :
    Except CompileError α → Except CompileError α → Prop
  | ok (a b : α) : Concurs dialect (.ok a) (.ok b)
  | error (e : CompileError) : Concurs dialect (.error e) (.error (e.inDialect dialect))

namespace Concurs

theorem bind {α β : Type} {x y : Except CompileError α} {f g : α → Except CompileError β}
    (h : Concurs dialect x y) (hrest : ∀ a b, Concurs dialect (f a) (g b)) :
    Concurs dialect (x >>= f) (y >>= g) := by
  cases h with
  | ok a b => exact hrest a b
  | error e => exact .error e

theorem mapM {α β : Type} {f g : α → Except CompileError β} {l : List α}
    (h : ∀ a ∈ l, Concurs dialect (f a) (g a)) : Concurs dialect (l.mapM f) (l.mapM g) := by
  induction l with
  | nil => exact .ok _ _
  | cons a l ih =>
    rw [List.mapM_cons, List.mapM_cons]
    refine (h a (List.mem_cons_self ..)).bind fun b b' => ?_
    refine (ih fun a ha => h a (List.mem_cons_of_mem _ ha)).bind fun rest rest' => ?_
    exact .ok _ _

theorem inColumn {α : Type} (x : Except ColumnFault α) :
    Concurs dialect (Table.inColumn m c x) (Table.inColumn m c x) := by
  cases x with
  | error fault => exact .error (.column m.name c.name fault)
  | ok a => exact .ok a a

end Concurs

theorem le_maxIdentifierLength (dialect : Dialect) : 63 ≤ dialect.maxIdentifierLength := by
  cases dialect <;> decide

theorem identifierFault?_eq {limit limit' : Nat} {name : Text} (h : name.length ≤ limit)
    (h' : name.length ≤ limit') : identifierFault? limit name = identifierFault? limit' name := by
  cases name with
  | nil => rfl
  | cons b rest =>
    simp only [identifierFault?]
    rw [if_neg (Nat.not_lt.mpr h), if_neg (Nat.not_lt.mpr h')]

namespace Table

variable {dialect' : Dialect}

theorem quoted_concurs (role : Text) {name : Text} (h : name.length ≤ 63) :
    Concurs dialect (quoted dialect' role name) (quoted dialect role name) := by
  unfold quoted quoteIdentifier
  rw [identifierFault?_eq (Nat.le_trans h (le_maxIdentifierLength dialect'))
    (Nat.le_trans h (le_maxIdentifierLength dialect))]
  cases identifierFault? dialect.maxIdentifierLength name with
  | some fault => exact .error (.identifier ⟨dialect', role, name, fault⟩)
  | none => exact .ok _ _

section Column

variable (hshort : ∀ name, Mentions m name → name.length ≤ 63) (hc : c ∈ m.columns)
include hshort hc

theorem definition_concurs :
    Concurs dialect (definition dialect' m c) (definition dialect m c) := by
  rw [definition_eq, definition_eq]
  refine (Concurs.inColumn _).bind fun type type' => ?_
  refine (quoted_concurs _ (hshort _ (.column hc))).bind fun name name' => ?_
  exact .ok _ _

theorem foreignKey_concurs {target : Text} (htarget : argument? c .reference = some target) :
    Concurs dialect (foreignKey dialect' m c target) (foreignKey dialect m c target) := by
  unfold foreignKey
  split
  . exact Concurs.inColumn _
  . next table column hparts =>
    have hreferences : References c table column :=
      (references_iff htarget).mpr (referenceParts?_eq_some_iff.mp hparts).1
    have hcolumn := hshort _ (.referencedColumn hc hreferences)
    have htable := hshort _ (.referencedTable hc hreferences)
    refine (quoted_concurs _ hcolumn).bind fun quotedColumn quotedColumn' => ?_
    refine (quoted_concurs _ htable).bind fun quotedTable quotedTable' => ?_
    refine (quoted_concurs _ (hshort _ (.column hc))).bind fun name name' => ?_
    exact .ok _ _

theorem columnParts_concurs :
    Concurs dialect (columnParts dialect' m c) (columnParts dialect m c) := by
  unfold columnParts
  split
  . exact Concurs.inColumn _
  . refine (definition_concurs hshort hc).bind fun text text' => ?_
    split
    . exact .ok _ _
    . next target htarget =>
      refine (foreignKey_concurs hshort hc htarget).bind fun key key' => ?_
      exact .ok _ _

end Column

theorem create_concurs (hshort : ∀ name, Mentions m name → name.length ≤ 63) :
    Concurs dialect (create dialect' m) (create dialect m) := by
  refine (quoted_concurs _ (hshort _ .table)).bind fun table table' => ?_
  refine (Concurs.mapM fun c hc => columnParts_concurs hshort hc).bind fun parts parts' => ?_
  exact .ok _ _

end Table

theorem up_concurs {dialect' : Dialect} {s : Schema}
    (hshort : ∀ m ∈ s.models, ∀ name, Mentions m name → name.length ≤ 63) :
    Concurs dialect (up dialect' s) (up dialect s) := by
  refine (Concurs.mapM fun m hm => Table.create_concurs (hshort m hm)).bind fun tables tables' => ?_
  exact .ok _ _

/--
A schema is accepted by a dialect if, and only if, its models are valid up to the length of names in
the dialect. So what one dialect accepts is accepted by those with longer names, and if no name has
more than 63 bytes, then either all dialects accept the schema or all refuse it for one reason.
-/
theorem up_accepts_iff_validModel (s : Schema) :
    ((∃ statements, up .postgres s = .ok statements) ↔ ∀ m ∈ s.models, ValidModel 63 m) ∧
    ((∃ statements, up .mysql s = .ok statements) ↔ ∀ m ∈ s.models, ValidModel 64 m) ∧
    ((∃ statements, up .sqlite s = .ok statements) ↔ ∀ m ∈ s.models, ValidModel 256 m) ∧
    ((∃ statements, up .postgres s = .ok statements) →
      ∃ statements, up .mysql s = .ok statements) ∧
    ((∃ statements, up .mysql s = .ok statements) →
      ∃ statements, up .sqlite s = .ok statements) ∧
    ((∀ m ∈ s.models, ∀ name, Mentions m name → name.length ≤ 63) →
      (∀ dialect, ∃ statements, up dialect s = .ok statements) ∨
        ∃ e : CompileError, ∀ dialect, up dialect s = .error (e.inDialect dialect)) := by
  refine ⟨exists_up_ok_iff, exists_up_ok_iff, exists_up_ok_iff, fun h => ?_, fun h => ?_,
    fun hshort => ?_⟩
  . rw [exists_up_ok_iff] at h ⊢
    exact fun m hm => (h m hm).mono (by decide)
  . rw [exists_up_ok_iff] at h ⊢
    exact fun m hm => (h m hm).mono (by decide)
  . have hconcurs : ∀ dialect, Concurs dialect (up .postgres s) (up dialect s) :=
      fun _ => up_concurs hshort
    cases hpostgres : up .postgres s with
    | ok statements =>
      refine .inl fun dialect => ?_
      have h := hconcurs dialect
      rw [hpostgres] at h
      generalize up dialect s = result at h ⊢
      cases h with
      | ok _ statements' => exact ⟨statements', rfl⟩
    | error e =>
      refine .inr ⟨e, fun dialect => ?_⟩
      have h := hconcurs dialect
      rw [hpostgres] at h
      generalize up dialect s = result at h ⊢
      cases h with
      | error => rfl

/--
A table whose name has 64 bytes divides the dialects; an unknown rule for deletions is refused by
all, since the names are short.
-/
theorem up_accepts_iff_validModel_of_lengths :
    let long : Schema := ⟨[⟨List.replicate 64 (byte 'a'), []⟩], []⟩
    let short : Schema := ⟨
      [⟨ascii "comments", [
        ⟨ascii "post", ascii "Int", ⟨false, []⟩,
          [⟨ascii "ref", ⟨true, [ascii "posts.id"]⟩⟩,
            ⟨ascii "onDelete", ⟨true, [ascii "explode"]⟩⟩]⟩]⟩], []⟩
    (¬∃ statements, up .postgres long = .ok statements) ∧
      (∃ statements, up .sqlite long = .ok statements) ∧
      ∃ e : CompileError, ∀ dialect, up dialect short = .error (e.inDialect dialect) := by
  intro long short
  obtain ⟨hpostgres, hmysql, _, _, hsqlite, _⟩ := up_accepts_iff_validModel long
  refine ⟨?_, hsqlite (hmysql.mpr ?_), ?_⟩
  . rw [hpostgres]
    intro h
    exact absurd (h _ (List.mem_singleton_self _)).name.length_le (by decide)
  . intro m hm
    cases List.mem_singleton.mp hm
    refine ⟨⟨⟨byte 'a', List.replicate 63 (byte 'a'), rfl, by decide⟩, ?_, by decide⟩, nofun⟩
    intro b hb
    cases (List.mem_replicate.mp hb).2
    exact .inl (by decide)
  . have hshort : ∀ m ∈ short.models, ∀ name, Mentions m name → name.length ≤ 63 := by
      intro m hm name hname
      cases List.mem_singleton.mp hm
      cases hname with
      | table => decide
      | column hc =>
        cases List.mem_singleton.mp hc
        decide
      | referencedTable hc h | referencedColumn hc h =>
        cases List.mem_singleton.mp hc
        obtain ⟨target, htarget, hdivides⟩ := h
        cases htarget
        have hlength := congrArg List.length hdivides.eq
        rw [List.length_append, List.length_cons] at hlength
        have : (ascii "posts.id").length = 8 := by decide
        omega
    obtain haccepted | hrefused := (up_accepts_iff_validModel short).2.2.2.2.2 hshort
    . obtain ⟨statements, h⟩ := haccepted .postgres
      cases h
    . exact hrefused

end SchemaMigration.Sql
