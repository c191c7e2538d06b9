import SchemaMigration.Proofs.Migration.Name
import SchemaMigration.Proofs.Schema.RoundTrip
import SchemaMigration.Proofs.Sql.Effect

/-!
This module contains what a new migration file means: the schema that it is parsed to, and the
statements that this schema is compiled to in each dialect.
-/

namespace SchemaMigration

namespace Schema.Reads

variable {lineStart : Bool} {rest : Text} {lexemes : List Lexeme}

theorem comment {body : Text} (hbody : byte '\n' ∉ body) (h : Reads true rest lexemes) :
    Reads lineStart (byte '#' :: (body ++ byte '\n' :: rest)) lexemes := by
  have hend : EndsLine (byte '\n' :: rest) := rfl
  exact of_first (Piece.first_comment hbody hend lineStart) (newline h)

theorem spaces (n : Nat) (h : Reads lineStart rest lexemes) :
    Reads lineStart (List.replicate n (byte ' ') ++ rest) lexemes := by
  induction n with
  | zero => exact h
  | succ n ih => exact space ih

/-- A column in a line of its own, up to its first decorator. -/
theorem definition {name type : Text} (hname : IsName name) (htype : isScalarType type = true)
    (m n : Nat) (h : ∀ lineStart, Reads lineStart (byte '@' :: rest) lexemes) :
    Reads lineStart
      (List.replicate 2 (byte ' ') ++ (name ++ (List.replicate (m + 1) (byte ' ') ++
        (type ++ (List.replicate (n + 1) (byte ' ') ++ byte '@' :: rest)))))
      ((.identifier, name) :: (.type, type) :: lexemes) := by
  apply spaces
  apply Reads.name hname (by rfl)
  intro lineStart
  apply spaces
  apply Reads.type htype (by rfl)
  intro lineStart
  apply spaces
  exact h lineStart

end Schema.Reads

namespace Migration

open Schema (IsName Reads)

variable {name : Text}

def startColumns : List Schema.Column := [
  ⟨ascii "id", ascii "Serial", ⟨false, []⟩, [⟨ascii "pk", ⟨false, []⟩⟩]⟩,
  ⟨ascii "createdAt", ascii "Timestamp", ⟨false, []⟩, [⟨ascii "default", ⟨true, [ascii "now"]⟩⟩]⟩]

def startSchema (name : Text) : Schema := ⟨[⟨modelName name, startColumns⟩], []⟩

theorem isName_id : IsName (ascii "id") := (Schema.isBareWord_iff _).mp (by decide)

theorem isName_createdAt : IsName (ascii "createdAt") := (Schema.isBareWord_iff _).mp (by decide)

theorem startColumns_wellFormed : ∀ c ∈ startColumns, c.WellFormed := by
  rw [startColumns, List.forall_mem_cons, List.forall_mem_singleton]
  constructor
  . refine ⟨isName_id, by decide, fun _ => rfl, ?_, List.pairwise_singleton _ _⟩
    exact List.forall_mem_singleton.mpr ⟨⟨nofun, List.all_eq_true.mp rfl⟩, fun _ => rfl⟩
  . refine ⟨isName_createdAt, by decide, fun _ => rfl, ?_, List.pairwise_singleton _ _⟩
    exact List.forall_mem_singleton.mpr ⟨⟨nofun, List.all_eq_true.mp rfl⟩, nofun⟩

theorem startSchema_wellFormed (h : Accepted name) : (startSchema name).WellFormed :=
  ⟨List.forall_mem_singleton.mpr
      ⟨isName_modelName h, List.cons_ne_nil _ _, startColumns_wellFormed⟩,
    List.pairwise_singleton _ _, nofun⟩

def startBody : Text :=
  byte ' ' :: byte '\x7b' :: byte '\n' ::
    (List.replicate 2 (byte ' ') ++ (ascii "id" ++ (List.replicate 8 (byte ' ') ++
      (ascii "Serial" ++ (List.replicate 8 (byte ' ') ++ byte '@' :: (ascii "pk" ++ byte '\n' ::
    (List.replicate 2 (byte ' ') ++ (ascii "createdAt" ++ (List.replicate 1 (byte ' ') ++
      (ascii "Timestamp" ++ (List.replicate 5 (byte ' ') ++ byte '@' :: (ascii "default" ++
        byte '(' :: (ascii "now" ++ byte ')' :: byte '\n' ::
    [byte '\x7d', byte '\n'])))))))))))))

theorem startBody_reads (lineStart : Bool) :
    Reads lineStart startBody ((.leftBrace, [byte '\x7b']) ::
      (startColumns.flatMap Schema.Column.lexemes ++ [(.rightBrace, [byte '\x7d'])])) := by
  have hpk : Schema.IsDecoratorName (ascii "pk") := ⟨nofun, List.all_eq_true.mp rfl⟩
  have hdefault : Schema.IsDecoratorName (ascii "default") := ⟨nofun, List.all_eq_true.mp rfl⟩
  have hnow : IsName (ascii "now") := (Schema.isBareWord_iff _).mp (by decide)
  apply Reads.space
  apply Reads.punctuation rfl
  intro lineStart
  apply Reads.newline
  apply Reads.definition isName_id (by decide)
  intro lineStart
  apply Reads.decorator hpk (by rfl)
  intro lineStart
  apply Reads.newline
  apply Reads.definition isName_createdAt (by decide)
  intro lineStart
  apply Reads.decorator hdefault (by rfl)
  intro lineStart
  apply Reads.punctuation rfl
  intro lineStart
  apply Reads.name hnow (by rfl)
  intro lineStart
  apply Reads.punctuation rfl
  intro lineStart
  apply Reads.newline
  apply Reads.punctuation rfl
  intro lineStart
  exact Reads.newline (Reads.nil true)

theorem template_eq (name : Text) :
    template name = byte '#' :: (ascii " Migration: " ++ name ++ byte '\n' :: byte '\n' ::
      (ascii "model" ++ byte ' ' :: (modelName name ++ startBody))) := by
  have hfront : ascii "# Migration: " = byte '#' :: ascii " Migration: " := rfl
  have hmiddle : ascii "\n\nmodel " = byte '\n' :: byte '\n' :: (ascii "model" ++ [byte ' ']) := rfl
  have hbody : ascii (" \x7b\n" ++ "  id        Serial        @pk\n" ++
      "  createdAt Timestamp     @default(now)\n" ++ "\x7d\n") = startBody := by
    decide +kernel
  unfold template
  rw [hfront, hmiddle, hbody]
  simp only [List.cons_append, List.append_assoc, List.nil_append]

/-- The byte behind a comment ends the line, since there is none in an accepted name. -/
theorem newline_notMem_of_accepted (h : Accepted name) :
    byte '\n' ∉ ascii " Migration: " ++ name := by
  rw [List.mem_append, not_or]
  refine ⟨by decide, ?_⟩
  intro hmem
  have hbyte := h.bytes _ hmem
  revert hbyte
  decide

theorem template_reads (h : Accepted name) :
    Reads true (template name) (Schema.lexemes (startSchema name)) := by
  have hkeyword : Schema.IsWord (ascii "model") := ⟨rfl, List.all_eq_true.mp rfl⟩
  rw [template_eq]
  apply Reads.comment (newline_notMem_of_accepted h)
  apply Reads.newline
  apply Reads.word hkeyword (by rfl)
  intro lineStart
  apply Reads.space
  apply Reads.name (isName_modelName h) (by rfl)
  intro lineStart
  exact startBody_reads lineStart

theorem parse_template (h : Accepted name) :
    Schema.parse (template name) = .ok (startSchema name) :=
  Schema.parse_of_reads (startSchema_wellFormed h) (template_reads h)

theorem tokenize_of_isName {w : Text} (hw : IsName w) :
    ∃ start finish, Schema.tokenize w =
      .ok [⟨.identifier, w, start⟩, ⟨.endOfInput, [], finish⟩] := by
  have hreads : Reads true (w ++ []) [(.identifier, w)] := Reads.name hw trivial Reads.nil
  rw [List.append_nil] at hreads
  obtain ⟨tokens, finish, hgo, hlexemes⟩ := hreads w.length .start (Nat.le_refl _) rfl
  obtain ⟨⟨kind, text, start⟩, rfl, htoken⟩ := List.map_eq_singleton_iff.mp hlexemes
  cases htoken
  exact ⟨start, finish, hgo⟩

/--
A new migration file is parsed to the schema that it is meant to have, whatever its name is. The
name of the model is one token, and not a reserved word.
-/
theorem template_parses_to_startSchema (h : nameFault? name = none) :
    Schema.parse (template name) = .ok (startSchema name) ∧
      (∃ start finish, Schema.tokenize (modelName name) =
        .ok [⟨.identifier, modelName name, start⟩, ⟨.endOfInput, [], finish⟩]) ∧
      Schema.isReservedWord (modelName name) = false := by
  have haccepted := nameFault?_eq_none_iff.mp h
  have hname := isName_modelName haccepted
  exact ⟨parse_template haccepted, tokenize_of_isName hname, hname.2⟩

/-- A name that becomes the keyword without its separator. -/
theorem template_parses_of_keyword :
    modelName (ascii "m_odel") = ascii "MOdelMigration" ∧
      Schema.parse (template (ascii "m_odel")) = .ok (startSchema (ascii "m_odel")) ∧
      (∃ start finish, Schema.tokenize (ascii "MOdelMigration") =
        .ok [⟨.identifier, ascii "MOdelMigration", start⟩, ⟨.endOfInput, [], finish⟩]) ∧
      Schema.isReservedWord (ascii "MOdelMigration") = false := by
  have hmodel : modelName (ascii "m_odel") = ascii "MOdelMigration" := by decide
  refine ⟨hmodel, ?_⟩
  rw [← hmodel]
  exact template_parses_to_startSchema (by decide)

open Sql

variable {dialect : Dialect}

def startDefinitions : Dialect → List Text
  | .postgres =>
    [ascii "\"id\" SERIAL PRIMARY KEY",
      ascii "\"createdAt\" TIMESTAMP DEFAULT CURRENT_TIMESTAMP"]
  | .mysql =>
    [ascii "\x60id\x60 INT AUTO_INCREMENT PRIMARY KEY",
      ascii "\x60createdAt\x60 TIMESTAMP DEFAULT CURRENT_TIMESTAMP"]
  | .sqlite =>
    [ascii "\"id\" INTEGER PRIMARY KEY AUTOINCREMENT",
      ascii "\"createdAt\" TEXT DEFAULT CURRENT_TIMESTAMP"]

def startCreate (dialect : Dialect) (table : Text) : Text :=
  ascii "CREATE TABLE " ++ enclose dialect.quoteByte table ++ ascii " (\n" ++
    Table.body (startDefinitions dialect) ++ byte ')' :: Table.suffix dialect

def startDrop (dialect : Dialect) (table : Text) : Text :=
  ascii "DROP TABLE IF EXISTS " ++ enclose dialect.quoteByte table ++ ascii ";"

theorem columnParts_startColumns (dialect : Dialect) (m : Schema.Model) :
    startColumns.mapM (Table.columnParts dialect m) =
      .ok ((startDefinitions dialect).map (·, none)) := by
  cases dialect <;> rfl

/-- A word is an identifier of every dialect, unless it is too long. -/
theorem quoted_of_isWord {w : Text} (hw : Schema.IsWord w) (role : Text) :
    Table.quoted dialect role w =
      if dialect.maxIdentifierLength < w.length then
        .error (.identifier ⟨dialect, role, w, .tooLong dialect.maxIdentifierLength⟩)
      else .ok (enclose dialect.quoteByte w) := by
  cases w with
  | nil => cases hw
  | cons b rest =>
    have hbytes : (b :: rest).all isIdentifierByte = true := by
      rw [List.all_eq_true]
      intro c hc
      have hpart : Byte.isWordPart c = true := by
        cases hc with
        | head => exact Schema.isWordPart_of_isWordStart hw.1
        | tail _ hc => exact hw.2 c hc
      simp [isIdentifierByte, hpart]
    simp only [Table.quoted, quoteIdentifier, identifierFault?, hw.1, hbytes, Bool.not_true,
      Bool.false_eq_true, if_false]
    by_cases hlong : dialect.maxIdentifierLength < (b :: rest).length
    . simp only [if_pos hlong]
      rfl
    . simp only [if_neg hlong]
      rfl

theorem create_startColumns (h : Accepted name)
    (hlength : (modelName name).length ≤ dialect.maxIdentifierLength) :
    Table.create dialect ⟨modelName name, startColumns⟩ =
      .ok (startCreate dialect (modelName name)) := by
  simp only [Table.create, quoted_of_isWord (isName_modelName h).1, if_neg (Nat.not_lt.mpr hlength),
    ok_bind, columnParts_startColumns]
  cases dialect <;> rfl

theorem drop_startColumns (h : Accepted name)
    (hlength : (modelName name).length ≤ dialect.maxIdentifierLength) :
    Table.drop dialect ⟨modelName name, startColumns⟩ =
      .ok (startDrop dialect (modelName name)) := by
  simp only [Table.drop, quoted_of_isWord (isName_modelName h).1, if_neg (Nat.not_lt.mpr hlength),
    ok_bind]
  rfl

theorem compile_startSchema (h : Accepted name)
    (hlength : (modelName name).length ≤ dialect.maxIdentifierLength) :
    up dialect (startSchema name) = .ok [startCreate dialect (modelName name)] ∧
      down dialect (startSchema name) = .ok [startDrop dialect (modelName name)] := by
  constructor
  . simp only [up, startSchema, List.mapM_cons, create_startColumns h hlength, ok_bind]
    rfl
  . simp only [down, startSchema, List.reverse_singleton, List.mapM_cons,
      drop_startColumns h hlength, ok_bind]
    rfl

theorem compile_startSchema_of_long (h : Accepted name)
    (hlength : dialect.maxIdentifierLength < (modelName name).length) :
    let e : CompileError := .identifier
      ⟨dialect, ascii "table name", modelName name, .tooLong dialect.maxIdentifierLength⟩
    up dialect (startSchema name) = .error e ∧ down dialect (startSchema name) = .error e := by
  have hword := (isName_modelName h).1
  constructor
  . simp only [up, startSchema, List.mapM_cons, Table.create, quoted_of_isWord hword,
      if_pos hlength]
    rfl
  . simp only [down, startSchema, List.reverse_singleton, List.mapM_cons, Table.drop,
      quoted_of_isWord hword, if_pos hlength]
    rfl

/-- Which names are short enough for a dialect, whatever model they suggest. -/
theorem length_modelName_le_limit (h : Accepted name)
    (hname : dialect = .sqlite ∨ name.length ≤ 54) :
    (modelName name).length ≤ dialect.maxIdentifierLength := by
  have hle := length_modelName_le h
  have hlimit : name.length ≤ 100 := h.length
  cases dialect with
  | postgres =>
    have hname : name.length ≤ 54 := hname.resolve_left nofun
    exact Nat.le_trans hle (Nat.add_le_add_right hname 9)
  | mysql =>
    have hname : name.length ≤ 54 := hname.resolve_left nofun
    exact Nat.le_trans hle (by change name.length + 9 ≤ 64; omega)
  | sqlite => exact Nat.le_trans hle (by change name.length + 9 ≤ 256; omega)

/--
A new migration file is compiled to one statement that creates the table of its model, and to the
one that drops this table, exactly if the name of the model fits into the dialect's identifiers. If
it does not, both fail for this reason. It always fits in SQLite, and in each dialect if the
migration's own name has at most 54 bytes.
-/
theorem template_compiles_iff_fits (h : nameFault? name = none) (dialect : Dialect) :
    Schema.parse (template name) = .ok (startSchema name) ∧
      ((modelName name).length ≤ dialect.maxIdentifierLength →
        (up dialect (startSchema name) = .ok [startCreate dialect (modelName name)] ∧
          effect? dialect.quoteByte (startCreate dialect (modelName name)) =
            some (.create (modelName name) [])) ∧
        down dialect (startSchema name) = .ok [startDrop dialect (modelName name)] ∧
          effect? dialect.quoteByte (startDrop dialect (modelName name)) =
            some (.drop (modelName name))) ∧
      (dialect.maxIdentifierLength < (modelName name).length →
        let e : CompileError := .identifier
          ⟨dialect, ascii "table name", modelName name, .tooLong dialect.maxIdentifierLength⟩
        up dialect (startSchema name) = .error e ∧ down dialect (startSchema name) = .error e) ∧
      (dialect = .sqlite ∨ name.length ≤ 54 →
        (modelName name).length ≤ dialect.maxIdentifierLength) := by
  have haccepted := nameFault?_eq_none_iff.mp h
  refine ⟨parse_template haccepted, ?_, compile_startSchema_of_long haccepted,
    length_modelName_le_limit haccepted⟩
  intro hlength
  obtain ⟨hup, hdown⟩ := compile_startSchema haccepted hlength
  exact ⟨⟨hup, Table.create_effect (create_startColumns haccepted hlength)⟩, hdown,
    Table.drop_effect (drop_startColumns haccepted hlength)⟩

/-- The longest name that is sure to fit; its digits make the name of the model longer. -/
theorem template_compiles_of_digits :
    let name := List.replicate 54 (byte '7')
    ∃ table, modelName name = table ∧ table.length = 63 ∧
      up .postgres (startSchema name) = .ok [startCreate .postgres table] ∧
      down .postgres (startSchema name) = .ok [startDrop .postgres table] := by
  intro name
  have haccepted : nameFault? name = none := by decide
  obtain ⟨_, hfits, _, hlength⟩ := template_compiles_iff_fits haccepted .postgres
  obtain ⟨⟨hup, _⟩, hdown, _⟩ := hfits (hlength (.inr (Nat.le_refl 54)))
  exact ⟨modelName name, rfl, by decide, hup, hdown⟩

/-- A name that is accepted, while the name of its model is one byte too long for PostgreSQL. -/
theorem template_of_long_name_not_compiled :
    let name := List.replicate 64 (byte 'a')
    nameFault? name = none ∧ Schema.parse (template name) = .ok (startSchema name) ∧
      (∃ e, up .postgres (startSchema name) = .error (.identifier e) ∧
        down .postgres (startSchema name) = .error (.identifier e) ∧ e.fault = .tooLong 63) := by
  intro name
  have hfault : nameFault? name = none := by decide
  have haccepted := nameFault?_eq_none_iff.mp hfault
  have hlength : Dialect.postgres.maxIdentifierLength < (modelName name).length := by decide
  obtain ⟨hup, hdown⟩ := compile_startSchema_of_long haccepted hlength
  exact ⟨hfault, parse_template haccepted, _, hup, hdown, rfl⟩

end Migration

end SchemaMigration
