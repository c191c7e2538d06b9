import SchemaMigration.Proofs.Schema.Lexing

/-!
This module contains the grammar of the schema language as relations between lexemes and trees, and
that the trees of valid lexemes are well formed. It does not say how lexemes are parsed.
-/

namespace SchemaMigration.Schema

namespace Grammar

inductive TypeArgument : List Lexeme → Text → Prop
  | string (t : Text) : TypeArgument [(.string, t)] t
  | number (t : Text) : TypeArgument [(.number, t)] t
  | identifier (t : Text) : TypeArgument [(.identifier, t)] t

inductive DecoratorArgument : List Lexeme → Text → Prop
  | value {xs : List Lexeme} {t : Text} (h : TypeArgument xs t) : DecoratorArgument xs t
  | reference (table dot column : Text) :
    DecoratorArgument [(.identifier, table), (.dot, dot), (.identifier, column)]
      (table ++ byte '.' :: column)

inductive Separated (Argument : List Lexeme → Text → Prop) : List Lexeme → List Text → Prop
  | last {xs : List Lexeme} {t : Text} (h : Argument xs t) : Separated Argument xs [t]
  | cons {xs ys : List Lexeme} {t : Text} {args : List Text} (comma : Text) (h : Argument xs t)
    (hs : Separated Argument ys args) : Separated Argument (xs ++ (.comma, comma) :: ys) (t :: args)

inductive Parenthesized (Argument : List Lexeme → Text → Prop) : List Lexeme → Arguments → Prop
  | absent : Parenthesized Argument [] ⟨false, []⟩
  | empty (left right : Text) :
    Parenthesized Argument [(.leftParen, left), (.rightParen, right)] ⟨true, []⟩
  | values {xs : List Lexeme} {args : List Text} (left right : Text)
    (h : Separated Argument xs args) :
    Parenthesized Argument ((.leftParen, left) :: xs ++ [(.rightParen, right)]) ⟨true, args⟩

inductive Repeated {α : Type} (Rule : List Lexeme → α → Prop) : List Lexeme → List α → Prop
  | nil : Repeated Rule [] []
  | cons {xs ys : List Lexeme} {a : α} {as : List α} (h : Rule xs a) (hs : Repeated Rule ys as) :
    Repeated Rule (xs ++ ys) (a :: as)

inductive DecoratorRule : List Lexeme → Decorator → Prop
  | mk {xs : List Lexeme} {args : Arguments} (name : Text)
    (h : Parenthesized DecoratorArgument xs args) :
    DecoratorRule ((.decorator, name) :: xs) ⟨name, args⟩

inductive ColumnRule : List Lexeme → Column → Prop
  | mk {xs ys : List Lexeme} {args : Arguments} {ds : List Decorator} (name type : Text)
    (hargs : Parenthesized TypeArgument xs args) (hds : Repeated DecoratorRule ys ds) :
    ColumnRule ((.identifier, name) :: (.type, type) :: xs ++ ys) ⟨name, type, args, ds⟩

inductive ModelRule : List Lexeme → Model → Prop
  | mk {xs : List Lexeme} {cs : List Column} (keyword name left right : Text)
    (hcs : Repeated ColumnRule xs cs) (hne : cs ≠ []) :
    ModelRule ((.model, keyword) :: (.identifier, name) :: (.leftBrace, left) :: xs ++
      [(.rightBrace, right)]) ⟨name, cs⟩

inductive SchemaRule : List Lexeme → Schema → Prop
  | nil : SchemaRule [] ⟨[], []⟩
  | model {xs ys : List Lexeme} {m : Model} {s : Schema} (h : ModelRule xs m)
    (hs : SchemaRule ys s) : SchemaRule (xs ++ ys) { s with models := m :: s.models }
  | rawSql {ys : List Lexeme} {s : Schema} (sql : Text) (hs : SchemaRule ys s) :
    SchemaRule ((.rawSql, sql) :: ys) { s with rawSql := sql :: s.rawSql }

end Grammar

def Column.Distinct (c : Column) : Prop := (c.decorators.map (·.name)).Nodup

def Model.Distinct (m : Model) : Prop := ∀ c ∈ m.columns, c.Distinct

end Schema

structure Schema.Distinct (s : Schema) : Prop where
  models : (s.models.map (·.name)).Nodup
  columns : ∀ m ∈ s.models, m.Distinct

namespace Schema

namespace Grammar

def AllValid (xs : List Lexeme) : Prop := ∀ x ∈ xs, x.Valid

theorem allValid_cons {x : Lexeme} {xs : List Lexeme} :
    AllValid (x :: xs) ↔ x.Valid ∧ AllValid xs := List.forall_mem_cons

theorem allValid_append {xs ys : List Lexeme} :
    AllValid (xs ++ ys) ↔ AllValid xs ∧ AllValid ys := List.forall_mem_append

theorem Repeated.forall_mem {α : Type} {Rule : List Lexeme → α → Prop} {P : α → Prop}
    (hrule : ∀ {xs a}, Rule xs a → AllValid xs → P a) {xs : List Lexeme} {as : List α}
    (h : Repeated Rule xs as) (hxs : AllValid xs) : ∀ a ∈ as, P a := by
  induction h with
  | nil => exact nofun
  | cons h hs ih =>
    obtain ⟨hxs, hys⟩ := allValid_append.mp hxs
    exact List.forall_mem_cons.mpr ⟨hrule h hxs, ih hys⟩

theorem Parenthesized.wellFormed {Argument : List Lexeme → Text → Prop} {xs : List Lexeme}
    {args : Arguments} (h : Parenthesized Argument xs args) : args.WellFormed := by
  cases h with
  | absent => exact fun _ => rfl
  | empty => exact nofun
  | values => exact nofun

theorem DecoratorRule.wellFormed {xs : List Lexeme} {d : Decorator} (h : DecoratorRule xs d)
    (hxs : AllValid xs) : d.WellFormed := by
  cases h with
  | mk name h => exact ⟨(allValid_cons.mp hxs).1, h.wellFormed⟩

theorem ColumnRule.wellFormed {xs : List Lexeme} {c : Column} (h : ColumnRule xs c)
    (hxs : AllValid xs) (hdistinct : c.Distinct) : c.WellFormed := by
  cases h with
  | mk name type hargs hds =>
    obtain ⟨hname, hxs⟩ := allValid_cons.mp hxs
    obtain ⟨htype, hxs⟩ := allValid_cons.mp hxs
    obtain ⟨_, hys⟩ := allValid_append.mp hxs
    exact {
      name := hname
      type := htype
      typeArguments := hargs.wellFormed
      decorators := hds.forall_mem (fun h hxs => h.wellFormed hxs) hys
      distinct := hdistinct
    }

theorem ModelRule.wellFormed {xs : List Lexeme} {m : Model} (h : ModelRule xs m)
    (hxs : AllValid xs) (hdistinct : m.Distinct) : m.WellFormed := by
  cases h with
  | mk keyword name left right hcs hne =>
    obtain ⟨_, hxs⟩ := allValid_cons.mp hxs
    obtain ⟨hname, hxs⟩ := allValid_cons.mp hxs
    obtain ⟨_, hxs⟩ := allValid_cons.mp hxs
    obtain ⟨hxs, _⟩ := allValid_append.mp hxs
    refine ⟨hname, hne, ?_⟩
    intro c hc
    exact hcs.forall_mem (fun h hxs => h.wellFormed hxs) hxs c hc (hdistinct c hc)

theorem SchemaRule.wellFormed {xs : List Lexeme} {s : Schema} (h : SchemaRule xs s)
    (hxs : AllValid xs) (hdistinct : s.Distinct) : s.WellFormed := by
  have hparts : (∀ m ∈ s.models, m.Distinct → m.WellFormed) ∧
      ∀ sql ∈ s.rawSql, IsTrimmedLine sql := by
    clear hdistinct
    induction h with
    | nil => exact ⟨nofun, nofun⟩
    | model h hs ih =>
      obtain ⟨hxs, hys⟩ := allValid_append.mp hxs
      obtain ⟨hmodels, hlines⟩ := ih hys
      exact ⟨List.forall_mem_cons.mpr ⟨h.wellFormed hxs, hmodels⟩, hlines⟩
    | rawSql sql hs ih =>
      obtain ⟨hline, hys⟩ := allValid_cons.mp hxs
      obtain ⟨hmodels, hlines⟩ := ih hys
      exact ⟨hmodels, List.forall_mem_cons.mpr ⟨hline, hlines⟩⟩
  refine ⟨?_, hdistinct.models, hparts.2⟩
  intro m hm
  exact hparts.1 m hm (hdistinct.columns m hm)

def nextKind : List Lexeme → TokenKind
  | [] => .endOfInput
  | x :: _ => x.1

theorem DecoratorArgument.nextKind_ne {xs : List Lexeme} {t : Text} (h : DecoratorArgument xs t)
    (ys : List Lexeme) : nextKind (xs ++ ys) ≠ .rightParen := by
  cases h with
  | value h =>
    cases h
    all_goals exact nofun
  | reference => exact nofun

theorem Separated.nextKind_ne {Argument : List Lexeme → Text → Prop}
    (hargument : ∀ {xs t}, Argument xs t → ∀ ys, nextKind (xs ++ ys) ≠ .rightParen)
    {xs : List Lexeme} {args : List Text} (h : Separated Argument xs args) (ys : List Lexeme) :
    nextKind (xs ++ ys) ≠ .rightParen := by
  cases h with
  | last h => exact hargument h ys
  | cons comma h hs =>
    rw [List.append_assoc]
    exact hargument h _

theorem Separated.length_le {Argument : List Lexeme → Text → Prop}
    (hargument : ∀ {xs t}, Argument xs t → ∀ ys, nextKind (xs ++ ys) ≠ .rightParen)
    {xs : List Lexeme} {args : List Text} (h : Separated Argument xs args) :
    args.length ≤ xs.length := by
  induction h with
  | @last xs t h =>
    cases xs with
    | nil => exact absurd rfl (hargument h [(.rightParen, [])])
    | cons x xs => simp
  | cons comma h hs ih =>
    simp only [List.length_append, List.length_cons]
    omega

section Repeated

variable {α : Type} {Rule : List Lexeme → α → Prop} {kind : TokenKind}

/-- Behind what is repeated stands a repetition or what comes next. -/
theorem Repeated.nextKind_eq (hrule : ∀ {xs a}, Rule xs a → ∀ ys, nextKind (xs ++ ys) = kind)
    {xs : List Lexeme} {as : List α} (h : Repeated Rule xs as) (ys : List Lexeme) :
    nextKind (xs ++ ys) = kind ∨ nextKind (xs ++ ys) = nextKind ys := by
  cases h with
  | nil => exact .inr rfl
  | cons h hs =>
    rw [List.append_assoc]
    exact .inl (hrule h _)

theorem Repeated.length_le (hrule : ∀ {xs a}, Rule xs a → ∀ ys, nextKind (xs ++ ys) = kind)
    (hkind : kind ≠ .endOfInput) {xs : List Lexeme} {as : List α} (h : Repeated Rule xs as) :
    as.length ≤ xs.length := by
  induction h with
  | nil => exact Nat.le_refl _
  | @cons xs ys a as h hs ih =>
    cases xs with
    | nil => exact absurd (hrule h []).symm hkind
    | cons x xs =>
      simp only [List.length_append, List.length_cons]
      omega

end Repeated

theorem DecoratorRule.nextKind_eq {xs : List Lexeme} {d : Decorator} (h : DecoratorRule xs d)
    (ys : List Lexeme) : nextKind (xs ++ ys) = .decorator := by
  cases h
  rfl

theorem ColumnRule.nextKind_eq {xs : List Lexeme} {c : Column} (h : ColumnRule xs c)
    (ys : List Lexeme) : nextKind (xs ++ ys) = .identifier := by
  cases h
  rfl

end Grammar

end SchemaMigration.Schema
