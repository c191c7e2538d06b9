import SchemaMigration.Proofs.Schema.Parsing
import SchemaMigration.Proofs.Schema.Printing

/-!
This module contains that printing and parsing are inverse on the well-formed trees, which are those
that the language can express.
-/

namespace SchemaMigration.Schema

open Grammar

theorem typeArgument_lexemes (t : Text) : TypeArgument (argumentLexemes false t) t := by
  unfold argumentLexemes
  split
  . exact .identifier t
  . split
    . exact .number t
    . exact .string t

theorem decoratorArgument_lexemes (t : Text) : DecoratorArgument (argumentLexemes true t) t := by
  unfold argumentLexemes
  split
  . exact .value (.identifier t)
  . split
    . exact .value (.number t)
    . split
      . next hreference =>
        obtain ⟨table, column, hsplit, ht, _⟩ := isBareReference_split hreference
        rw [hsplit, ht]
        exact .reference table _ column
      . exact .value (.string t)

section Arguments

variable {Argument : List Lexeme → Text → Prop} {allowReference : Bool}

theorem separated_lexemes (h : ∀ t, Argument (argumentLexemes allowReference t) t)
    {args : List Text} (hargs : args ≠ []) :
    Separated Argument (valueLexemes allowReference args) args := by
  induction args with
  | nil => exact absurd rfl hargs
  | cons t args ih =>
    cases args with
    | nil => exact .last (h t)
    | cons next args => exact .cons _ (h t) (ih nofun)

theorem parenthesized_lexemes (h : ∀ t, Argument (argumentLexemes allowReference t) t)
    {args : Arguments} (hargs : args.WellFormed) :
    Parenthesized Argument (parenthesized allowReference args.toOption) args := by
  obtain ⟨written, values⟩ := args
  cases written with
  | false =>
    obtain rfl : values = [] := hargs rfl
    exact .absent
  | true =>
    cases values with
    | nil => exact .empty _ _
    | cons t args => exact .values _ _ (separated_lexemes h nofun)

end Arguments

theorem repeated_flatMap {α : Type} {Rule : List Lexeme → α → Prop} {f : α → List Lexeme}
    {as : List α} (h : ∀ a ∈ as, Rule (f a) a) : Repeated Rule (as.flatMap f) as := by
  induction as with
  | nil => exact .nil
  | cons a as ih =>
    obtain ⟨ha, has⟩ := List.forall_mem_cons.mp h
    exact .cons ha (ih has)

theorem decoratorRule_lexemes {d : Decorator} (h : d.WellFormed) : DecoratorRule d.lexemes d :=
  .mk _ (parenthesized_lexemes decoratorArgument_lexemes h.arguments)

theorem columnRule_lexemes {c : Column} (h : c.WellFormed) : ColumnRule c.lexemes c := by
  apply ColumnRule.mk
  . exact parenthesized_lexemes typeArgument_lexemes h.typeArguments
  . apply repeated_flatMap
    intro d hd
    exact decoratorRule_lexemes (h.decorators d hd)

theorem modelRule_lexemes {m : Model} (h : m.WellFormed) : ModelRule m.lexemes m := by
  refine .mk _ _ _ _ (repeated_flatMap ?_) h.nonempty
  intro c hc
  exact columnRule_lexemes (h.columns c hc)

theorem schemaRule_rawSql (sqls : List Text) :
    SchemaRule (sqls.map fun sql => (.rawSql, sql)) ⟨[], sqls⟩ := by
  induction sqls with
  | nil => exact .nil
  | cons sql sqls ih => exact .rawSql sql ih

theorem schemaRule_lexemes {s : Schema} (h : s.WellFormed) : SchemaRule (lexemes s) s := by
  obtain ⟨models, rawSql⟩ := s
  have hmodels := h.models
  unfold lexemes
  clear h
  induction models with
  | nil => exact schemaRule_rawSql rawSql
  | cons m models ih =>
    obtain ⟨hm, hmore⟩ := List.forall_mem_cons.mp hmodels
    dsimp only at ih ⊢
    rw [List.flatMap_cons, List.append_assoc]
    exact .model (modelRule_lexemes hm) (ih hmore)

theorem distinct_of_wellFormed {s : Schema} (h : s.WellFormed) : s.Distinct :=
  ⟨h.distinct, fun m hm c hc => ((h.models m hm).columns c hc).distinct⟩

theorem bodyTokens_append {body : List Token} {finish : Position}
    (h : ∀ t ∈ body, Lexeme.Valid t.lexeme) :
    bodyTokens (body ++ [⟨.endOfInput, [], finish⟩]) = body := by
  unfold bodyTokens
  rw [List.takeWhile_append_of_pos]
  . simp
  . intro t ht
    apply bne_iff_ne.mpr
    intro hkind
    have hvalid := h t ht
    simp only [Token.lexeme, hkind] at hvalid
    exact hvalid

/-- What is known of the tokens of a source that can be parsed. -/
theorem tokens_of_parse {source : Text} {s : Schema} (h : parse source = .ok s) :
    ∃ body finish, tokenize source = .ok (body ++ [⟨.endOfInput, [], finish⟩]) ∧
      (∀ t ∈ body, Lexeme.Valid t.lexeme) ∧
        Grammar.SchemaRule (body.map Token.lexeme) s ∧ s.Distinct := by
  unfold parse at h
  obtain ⟨tokens, htokens, h⟩ := bind_eq_ok.mp h
  obtain ⟨body, finish, rfl, hvalid⟩ := tokenize.go_valid htokens
  obtain ⟨hrule, hdistinct⟩ := (ofTokens_eq_ok_iff _ s).mp h
  rw [bodyTokens_append hvalid] at hrule
  exact ⟨body, finish, htokens, hvalid, hrule, hdistinct⟩

/-- Every source that can be read has a well-formed tree. -/
theorem wellFormed_of_parse {source : Text} {s : Schema} (h : parse source = .ok s) :
    s.WellFormed := by
  obtain ⟨body, finish, _, hvalid, hrule, hdistinct⟩ := tokens_of_parse h
  exact hrule.wellFormed (List.forall_mem_map.mpr hvalid) hdistinct

/-- The tokens of a source that reads as lexemes. -/
theorem tokens_of_reads {source : Text} {xs : List Lexeme} (h : Reads true source xs) :
    ∃ body finish, tokenize source = .ok (body ++ [⟨.endOfInput, [], finish⟩]) ∧
      (∀ t ∈ body, Lexeme.Valid t.lexeme) ∧ body.map Token.lexeme = xs := by
  obtain ⟨body, finish, hgo, hlexemes⟩ := h source.length .start (Nat.le_refl _) rfl
  obtain ⟨body', finish', happend, hvalid⟩ := tokenize.go_valid hgo
  obtain ⟨rfl, _⟩ := List.append_inj' happend rfl
  exact ⟨body, finish, hgo, hvalid, hlexemes⟩

/-- A source that reads as the lexemes of a well-formed tree has this tree. -/
theorem parse_of_reads {source : Text} {s : Schema} (hs : s.WellFormed)
    (h : Reads true source (lexemes s)) : parse source = .ok s := by
  obtain ⟨body, finish, htokens, hvalid, hlexemes⟩ := tokens_of_reads h
  unfold parse
  rw [htokens, ok_bind, ofTokens_eq_ok_iff, bodyTokens_append hvalid, hlexemes]
  exact ⟨schemaRule_lexemes hs, distinct_of_wellFormed hs⟩

theorem parse_print {s : Schema} (hs : s.WellFormed) : parse (print s) = .ok s :=
  parse_of_reads hs (print_reads hs)

/--
A tree that was parsed is well formed, and a tree can be printed and parsed back exactly if it is
well formed. So a parsed tree can be printed and parsed back.
-/
theorem parse_print_eq_iff_wellFormed :
    (∀ (source : Text) (s : Schema), parse source = .ok s → s.WellFormed) ∧
      (∀ s : Schema, parse (print s) = .ok s ↔ s.WellFormed) ∧
      ∀ (source : Text) (s : Schema), parse source = .ok s → parse (print s) = .ok s := by
  refine ⟨?_, ?_, ?_⟩
  . intro source s h
    exact wellFormed_of_parse h
  . intro s
    constructor
    . intro h
      exact wellFormed_of_parse h
    . intro hs
      exact parse_print hs
  . intro source s h
    exact parse_print (wellFormed_of_parse h)

/-- A source with an escaped string, a reference and raw SQL, and the tree it has. -/
theorem parse_print_postings :
    let source := ascii "MODEL Post \x7b id Enum('a\\'b', x) @ref(User.id)\n\x7d\n > select 1 \n"
    let s : Schema := ⟨
      [⟨ascii "Post", [⟨ascii "id", ascii "Enum", ⟨true, [ascii "a'b", ascii "x"]⟩,
        [⟨ascii "ref", ⟨true, [ascii "User.id"]⟩⟩]⟩]⟩],
      [ascii "select 1"]⟩
    parse source = .ok s ∧ s.WellFormed ∧ parse (print s) = .ok s := by
  intro source s
  have h : parse source = .ok s := by decide +kernel
  obtain ⟨hwell, _, hprint⟩ := parse_print_eq_iff_wellFormed
  exact ⟨h, hwell _ _ h, hprint _ _ h⟩

end SchemaMigration.Schema
