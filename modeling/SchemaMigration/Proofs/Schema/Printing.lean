import SchemaMigration.Proofs.Schema.Lexing

/-!
This module contains the lexemes of a schema tree, and that the printed form of a well-formed tree
reads as its lexemes.
-/

namespace SchemaMigration.Schema

def argumentLexemes (allowReference : Bool) (t : Text) : List Lexeme :=
  if isBareWord t then
    [(.identifier, t)]
  else if isBareNumber t then
    [(.number, t)]
  else if allowReference && isBareReference t then
    [(.identifier, (t.splitFirst (· == byte '.')).1), (.dot, [byte '.']),
      (.identifier, (t.splitFirst (· == byte '.')).2.getD [])]
  else
    [(.string, t)]

def valueLexemes (allowReference : Bool) : List Text → List Lexeme
  | [] => []
  | [t] => argumentLexemes allowReference t
  | t :: next :: rest =>
    argumentLexemes allowReference t ++
      (.comma, [byte ',']) :: valueLexemes allowReference (next :: rest)

def parenthesized (allowReference : Bool) : Option (List Text) → List Lexeme
  | none => []
  | some args =>
    (.leftParen, [byte '(']) :: valueLexemes allowReference args ++ [(.rightParen, [byte ')'])]

def Decorator.lexemes (d : Decorator) : List Lexeme :=
  (.decorator, d.name) :: parenthesized true d.args?

def Column.lexemes (c : Column) : List Lexeme :=
  (.identifier, c.name) :: (.type, c.type) :: parenthesized false c.typeArgs? ++
    c.decorators.flatMap Decorator.lexemes

def Model.lexemes (m : Model) : List Lexeme :=
  (.model, ascii "model") :: (.identifier, m.name) :: (.leftBrace, [byte '{']) ::
    m.columns.flatMap Column.lexemes ++ [(.rightBrace, [byte '}'])]

def lexemes (s : Schema) : List Lexeme :=
  s.models.flatMap Model.lexemes ++ s.rawSql.map fun sql => (.rawSql, sql)

def EndsArgument (rest : Text) : Prop := rest.Stops fun b => Byte.isWordPart b || b == byte '.'

theorem EndsArgument.stops {rest : Text} (h : EndsArgument rest) :
    rest.Stops Byte.isWordPart := by
  cases rest with
  | nil => trivial
  | cons b rest => exact (Bool.or_eq_false_iff.mp h).1

theorem isBareReference_split {t : Text} (h : isBareReference t = true) :
    ∃ table column, t.splitFirst (· == byte '.') = (table, some column) ∧
      t = table ++ byte '.' :: column ∧ IsName table ∧ IsName column := by
  unfold isBareReference at h
  split at h
  . cases h
  . next table column hsplit =>
    obtain ⟨dot, ht, hdot, _⟩ := Text.splitFirst_eq_some hsplit
    rw [Bool.and_eq_true, isBareWord_iff, isBareWord_iff] at h
    rw [beq_iff_eq.mp hdot] at ht
    exact ⟨table, column, hsplit, ht, h.1, h.2⟩

namespace Reads

variable {rest : Text} {xs : List Lexeme}

theorem argument (allowReference : Bool) (t : Text) (hrest : EndsArgument rest)
    (h : ∀ lineStart, Reads lineStart rest xs) (lineStart : Bool) :
    Reads lineStart (Printer.argument allowReference t ++ rest)
      (argumentLexemes allowReference t ++ xs) := by
  unfold Printer.argument argumentLexemes
  cases hword : isBareWord t with
  | true => exact name ((isBareWord_iff t).mp hword) hrest.stops h
  | false =>
    cases hnumber : isBareNumber t with
    | true => exact number hnumber hrest h
    | false =>
      cases hreference : allowReference && isBareReference t with
      | false => exact quoted t h
      | true =>
        rw [Bool.and_eq_true] at hreference
        obtain ⟨table, column, hsplit, ht, htable, hcolumn⟩ := isBareReference_split hreference.2
        simp only [hsplit, Bool.false_or, ↓reduceIte, Bool.false_eq_true]
        rw [ht, List.append_assoc]
        apply name htable
        . rfl
        . intro lineStart
          apply punctuation rfl
          intro lineStart
          exact name hcolumn hrest.stops h

theorem values (allowReference : Bool) (args : List Text) (hrest : EndsArgument rest)
    (h : ∀ lineStart, Reads lineStart rest xs) (lineStart : Bool) :
    Reads lineStart (Text.join (ascii ", ") (args.map (Printer.argument allowReference)) ++ rest)
      (valueLexemes allowReference args ++ xs) := by
  induction args generalizing lineStart with
  | nil => exact h lineStart
  | cons t args ih =>
    cases args with
    | nil => exact argument allowReference t hrest h lineStart
    | cons next args =>
      simp only [List.map_cons, Text.join, valueLexemes, List.append_assoc, List.cons_append]
      apply argument allowReference t
      . rfl
      . intro lineStart
        apply punctuation rfl
        intro lineStart
        exact space (ih lineStart)

theorem arguments (allowReference : Bool) (args? : Option (List Text))
    (h : ∀ lineStart, Reads lineStart rest xs) (lineStart : Bool) :
    Reads lineStart (Printer.arguments allowReference args? ++ rest)
      (parenthesized allowReference args? ++ xs) := by
  cases args? with
  | none => exact h lineStart
  | some args =>
    simp only [Printer.arguments, parenthesized, List.cons_append, List.append_assoc]
    apply punctuation rfl
    apply values allowReference args
    . rfl
    . intro lineStart
      exact punctuation rfl h

theorem stops_arguments (allowReference : Bool) (args? : Option (List Text))
    (h : rest.Stops Byte.isWordPart) :
    Text.Stops Byte.isWordPart (Printer.arguments allowReference args? ++ rest) := by
  cases args? with
  | none => exact h
  | some args => rfl

theorem decorators {ds : List Decorator} (hds : ∀ d ∈ ds, d.WellFormed)
    (hstop : rest.Stops Byte.isWordPart) (h : ∀ lineStart, Reads lineStart rest xs)
    (lineStart : Bool) :
    Reads lineStart (ds.flatMap Printer.decorator ++ rest)
      (ds.flatMap Decorator.lexemes ++ xs) := by
  induction ds generalizing lineStart with
  | nil => exact h lineStart
  | cons d ds ih =>
    have hrest : Text.Stops Byte.isWordPart (ds.flatMap Printer.decorator ++ rest) := by
      cases ds with
      | nil => exact hstop
      | cons next ds => rfl
    have hread := ih fun d hd => hds d (List.mem_cons_of_mem _ hd)
    simp only [List.flatMap_cons, Printer.decorator, Decorator.lexemes, List.append_assoc,
      List.cons_append]
    apply space
    apply decorator (hds d (List.mem_cons_self ..)).name
    . exact stops_arguments true _ hrest
    . exact arguments true _ hread

theorem column {c : Column} (hc : c.WellFormed) (h : Reads true rest xs) (lineStart : Bool) :
    Reads lineStart (Printer.column c ++ rest) (c.lexemes ++ xs) := by
  have hend : ∀ lineStart, Reads lineStart (byte '\n' :: rest) xs := fun _ => newline h
  have hnewline : Text.Stops Byte.isWordPart (byte '\n' :: rest) := rfl
  have hdecorators := decorators hc.decorators hnewline hend
  have hstop : Text.Stops Byte.isWordPart
      (c.decorators.flatMap Printer.decorator ++ byte '\n' :: rest) := by
    cases c.decorators with
    | nil => rfl
    | cons d ds => rfl
  simp only [Printer.column, Column.lexemes, List.append_assoc, List.cons_append]
  apply space
  apply space
  apply name hc.name
  . rfl
  . intro lineStart
    apply space
    apply type hc.type
    . exact stops_arguments false _ hstop
    . exact arguments false _ hdecorators

theorem columns {cs : List Column} (hcs : ∀ c ∈ cs, c.WellFormed) (h : Reads true rest xs) :
    Reads true (cs.flatMap Printer.column ++ rest) (cs.flatMap Column.lexemes ++ xs) := by
  induction cs with
  | nil => exact h
  | cons c cs ih =>
    simp only [List.flatMap_cons, List.append_assoc]
    apply column (hcs c (List.mem_cons_self ..))
    exact ih fun c hc => hcs c (List.mem_cons_of_mem _ hc)

theorem model {m : Model} (hm : m.WellFormed) (h : Reads true rest xs) (lineStart : Bool) :
    Reads lineStart (Printer.model m ++ rest) (m.lexemes ++ xs) := by
  simp only [Printer.model, Model.lexemes, List.append_assoc, List.cons_append]
  have hkeyword : IsWord (ascii "model") := ⟨rfl, List.all_eq_true.mp rfl⟩
  change Reads lineStart (ascii "model" ++ byte ' ' :: _) _
  apply word hkeyword
  . rfl
  . intro lineStart
    apply space
    apply name hm.name
    . rfl
    . intro lineStart
      apply space
      apply punctuation rfl
      intro lineStart
      apply newline
      apply columns hm.columns
      apply punctuation rfl
      intro lineStart
      exact newline h

theorem models {ms : List Model} (hms : ∀ m ∈ ms, m.WellFormed) (h : Reads true rest xs) :
    Reads true (Text.join [byte '\n'] (ms.map Printer.model) ++ rest)
      (ms.flatMap Model.lexemes ++ xs) := by
  induction ms with
  | nil => exact h
  | cons m ms ih =>
    have hm := hms m (List.mem_cons_self ..)
    have hread := ih fun m hm => hms m (List.mem_cons_of_mem _ hm)
    cases ms with
    | nil => simpa [Text.join] using model hm h true
    | cons next ms =>
      simp only [List.map_cons, Text.join, List.flatMap_cons, List.append_assoc] at hread ⊢
      apply model hm
      exact newline hread

theorem rawSqls {sqls : List Text} (hsqls : ∀ sql ∈ sqls, IsTrimmedLine sql) :
    Reads true (sqls.flatMap Printer.rawSql) (sqls.map fun sql => (.rawSql, sql)) := by
  induction sqls with
  | nil => exact nil true
  | cons sql sqls ih =>
    simp only [List.flatMap_cons, List.map_cons]
    apply rawSql (hsqls sql (List.mem_cons_self ..))
    exact ih fun sql hsql => hsqls sql (List.mem_cons_of_mem _ hsql)

end Reads

theorem print_reads {s : Schema} (hs : s.WellFormed) : Reads true (print s) (lexemes s) := by
  unfold print lexemes
  rw [List.append_assoc]
  apply Reads.models hs.models
  split
  . exact Reads.newline (Reads.rawSqls hs.rawSql)
  . exact Reads.rawSqls hs.rawSql

end SchemaMigration.Schema
