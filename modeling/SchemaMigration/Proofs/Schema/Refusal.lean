import SchemaMigration.Proofs.Schema.Parsing

/-!
This module contains what the parser does with tokens that the grammar does not derive: it refuses
them at the place of one of them.
-/

namespace SchemaMigration.Schema

namespace Parser

open Grammar

def Located {α : Type} (finish : Position) (ts : List Token) (x : Except ParseError α) : Prop :=
  ∀ e, x = .error e → e.position = finish ∨ ∃ t ∈ ts, e.position = t.position

variable {finish : Position} {ts rest : List Token} {α β : Type}

theorem located_ok (a : α) : Located finish ts (.ok a) := nofun

theorem located_bind {x : Except ParseError α} {f : α → Except ParseError β}
    (hx : Located finish ts x) (hf : ∀ a, x = .ok a → Located finish ts (f a)) :
    Located finish ts (x >>= f) := by
  cases x with
  | error e =>
    rintro _ ⟨⟩
    exact hx e rfl
  | ok a => exact hf a rfl

theorem Located.mono {ts' : List Token} {x : Except ParseError α} (h : Located finish ts x)
    (hts : ts <:+ ts') : Located finish ts' x := by
  intro e he
  cases h e he with
  | inl h => exact .inl h
  | inr h =>
    obtain ⟨t, ht, hposition⟩ := h
    exact .inr ⟨t, hts.subset ht, hposition⟩

theorem located_peek (ts : List Token) (fault : Fault) :
    Located finish ts (.error ⟨fault, (peek finish ts).position⟩ : Except ParseError α) := by
  rintro _ ⟨⟩
  cases ts with
  | nil => exact .inl rfl
  | cons t ts => exact .inr ⟨t, List.mem_cons_self .., rfl⟩

theorem expect_located (kind : TokenKind) (what : Expectation) (ts : List Token) :
    Located finish ts (expect finish kind what ts) := by
  unfold expect
  split
  . exact located_ok _
  . exact located_peek ts _

theorem Sound.suffix {parser : List Token → Except ParseError (α × List Token)}
    {Rule : List Lexeme → α → Prop} (hparser : Sound parser Rule) {a : α}
    (h : parser ts = .ok (a, rest)) : rest <:+ ts := by
  obtain ⟨used, rfl, _⟩ := hparser h
  exact List.suffix_append used rest

theorem expect_suffix {kind : TokenKind} {what : Expectation} {t : Token}
    (h : expect finish kind what ts = .ok (t, rest)) : rest <:+ ts := by
  unfold expect at h
  split at h
  . cases h
    exact List.tail_suffix ts
  . cases h

theorem typeArgument_located (ts : List Token) : Located finish ts (typeArgument finish ts) := by
  unfold typeArgument
  split
  . exact located_ok _
  . exact located_ok _
  . exact located_ok _
  . exact located_peek ts _

theorem decoratorArgument_located (ts : List Token) :
    Located finish ts (decoratorArgument finish ts) := by
  unfold decoratorArgument
  split
  . exact located_ok _
  . exact located_ok _
  . split
    . apply located_bind
      . have htail := (List.tail_suffix ts.tail).trans (List.tail_suffix ts)
        exact (expect_located _ _ _).mono htail
      . intro _ _
        exact located_ok _
    . exact located_ok _
  . exact located_peek ts _

section Arguments

variable {argument : List Token → Except ParseError (Text × List Token)} {close : Expectation}
  {Argument : List Lexeme → Text → Prop}

theorem arguments_located (hsound : Sound argument Argument)
    (hargument : ∀ ts, Located finish ts (argument ts)) (fuel : Nat) (ts : List Token) :
    Located finish ts (arguments finish argument close fuel ts) := by
  induction fuel generalizing ts with
  | zero => exact located_peek ts _
  | succ fuel ih =>
    unfold arguments
    apply located_bind (hargument ts)
    rintro ⟨arg, after⟩ harg
    have hafter := hsound.suffix harg
    dsimp only
    split
    . apply located_bind ((ih after.tail).mono ((List.tail_suffix after).trans hafter))
      intro _ _
      exact located_ok _
    . apply located_bind ((expect_located _ _ after).mono hafter)
      intro _ _
      exact located_ok _

theorem optionalArguments_located (hsound : Sound argument Argument)
    (hargument : ∀ ts, Located finish ts (argument ts)) (ts : List Token) :
    Located finish ts (optionalArguments finish argument close ts) := by
  unfold optionalArguments
  split
  . split
    . exact located_ok _
    . apply located_bind ((arguments_located hsound hargument _ ts.tail).mono (List.tail_suffix ts))
      intro _ _
      exact located_ok _
  . exact located_ok _

end Arguments

theorem decorators_located (column : Text) (fuel : Nat) (seen : List Text) (ts : List Token) :
    Located finish ts (decorators finish column fuel seen ts) := by
  induction fuel generalizing seen ts with
  | zero => exact located_ok _
  | succ fuel ih =>
    unfold decorators
    split
    . apply located_bind ((optionalArguments_located decoratorArgument_sound
        decoratorArgument_located ts.tail).mono (List.tail_suffix ts))
      rintro ⟨args?, after⟩ hparsed
      have hafter := (optionalArguments_sound decoratorArgument_sound).suffix hparsed
      dsimp only
      split
      . exact located_peek ts _
      . apply located_bind ((ih _ after).mono (hafter.trans (List.tail_suffix ts)))
        intro _ _
        exact located_ok _
    . exact located_ok _

theorem column_located (ts : List Token) : Located finish ts (column finish ts) := by
  unfold column
  apply located_bind (expect_located _ _ ts)
  rintro ⟨name, ts₁⟩ hname
  have hts₁ := expect_suffix hname
  apply located_bind ((expect_located _ _ ts₁).mono hts₁)
  rintro ⟨type, ts₂⟩ htype
  have hts₂ := (expect_suffix htype).trans hts₁
  apply located_bind ((optionalArguments_located typeArgument_sound typeArgument_located
    ts₂).mono hts₂)
  rintro ⟨args?, ts₃⟩ hparsed
  have hts₃ := ((optionalArguments_sound typeArgument_sound).suffix hparsed).trans hts₂
  apply located_bind ((decorators_located _ _ _ ts₃).mono hts₃)
  intro _ _
  exact located_ok _

theorem columns_located (fuel : Nat) (ts : List Token) :
    Located finish ts (columns finish fuel ts) := by
  induction fuel generalizing ts with
  | zero => exact located_ok _
  | succ fuel ih =>
    unfold columns
    split
    . exact located_ok _
    . exact located_ok _
    . apply located_bind (column_located ts)
      rintro ⟨first, ts₁⟩ hfirst
      apply located_bind ((ih ts₁).mono (column_sound.suffix hfirst))
      intro _ _
      exact located_ok _

theorem model_located (ts : List Token) : Located finish ts (model finish ts) := by
  unfold model
  apply located_bind (expect_located _ _ ts)
  rintro ⟨name, ts₁⟩ hname
  have hts₁ := expect_suffix hname
  apply located_bind ((expect_located _ _ ts₁).mono hts₁)
  rintro ⟨left, ts₂⟩ hleft
  have hts₂ := (expect_suffix hleft).trans hts₁
  apply located_bind ((columns_located _ ts₂).mono hts₂)
  rintro ⟨cs, ts₃⟩ hcs
  have hts₃ := ((columns_sound _).suffix hcs).trans hts₂
  dsimp only
  split
  . rintro _ ⟨⟩
    obtain ⟨rfl, _⟩ := expect_ok hname nofun
    exact .inr ⟨name, List.mem_cons_self .., rfl⟩
  . apply located_bind ((expect_located _ _ ts₃).mono hts₃)
    intro _ _
    exact located_ok _

theorem items_located (fuel : Nat) (seen : List Text) (ts : List Token) :
    Located finish ts (items finish fuel seen ts) := by
  induction fuel generalizing seen ts with
  | zero => exact located_ok _
  | succ fuel ih =>
    unfold items
    split
    . exact located_ok _
    . apply located_bind ((model_located ts.tail).mono (List.tail_suffix ts))
      rintro ⟨first, ts₁⟩ hfirst
      have hts₁ := ((model_sound []).suffix hfirst).trans (List.tail_suffix ts)
      dsimp only
      split
      . exact located_peek ts _
      . apply located_bind ((ih _ ts₁).mono hts₁)
        intro _ _
        exact located_ok _
    . apply located_bind ((ih seen ts.tail).mono (List.tail_suffix ts))
      intro _ _
      exact located_ok _
    . exact located_peek ts _

end Parser

theorem endPosition_mem {ts : List Token} (h : ts ≠ []) :
    ∃ t ∈ ts, endPosition ts = t.position := by
  unfold endPosition
  split
  . next t hfind => exact ⟨t, List.mem_of_find?_eq_some hfind, rfl⟩
  . split
    . next t hlast => exact ⟨t, List.mem_of_getLast? hlast, rfl⟩
    . next hlast => exact absurd (List.getLast?_eq_none_iff.mp hlast) h

theorem ofTokens_error {ts : List Token} {e : ParseError} (h : ofTokens ts = .error e) :
    ∃ t ∈ ts, e.position = t.position := by
  cases Parser.items_located _ _ _ e h with
  | inl hfinish =>
    have hne : ts ≠ [] := by
      rintro rfl
      cases h
    rw [hfinish]
    exact endPosition_mem hne
  | inr hmem =>
    obtain ⟨t, ht, hposition⟩ := hmem
    exact ⟨t, (mem_bodyTokens ht).1, hposition⟩

/--
The parser accepts a list of tokens exactly if the grammar derives a tree without repeated names
from those before the first end of input, and then it gives this tree. Otherwise it refuses the
list, at the place of one of its tokens.
-/
theorem ofTokens_accepts_grammar (ts : List Token) :
    (∀ s, ofTokens ts = .ok s ↔
      Grammar.SchemaRule ((ts.takeWhile (·.kind != .endOfInput)).map Token.lexeme) s ∧
        s.Distinct) ∧
    ((¬ ∃ s, Grammar.SchemaRule ((ts.takeWhile (·.kind != .endOfInput)).map Token.lexeme) s ∧
        s.Distinct) ↔
      ∃ e, ofTokens ts = .error e ∧ ∃ t ∈ ts, e.position = t.position) := by
  refine ⟨ofTokens_eq_ok_iff ts, ?_⟩
  cases h : ofTokens ts with
  | error e =>
    apply iff_of_true
    . rintro ⟨s, hs⟩
      have hok := (ofTokens_eq_ok_iff ts s).mpr hs
      rw [h] at hok
      cases hok
    . exact ⟨e, rfl, ofTokens_error h⟩
  | ok s =>
    apply iff_of_false
    . intro hnone
      exact hnone ⟨s, (ofTokens_eq_ok_iff ts s).mp h⟩
    . rintro ⟨e, he, _⟩
      cases he

/-- A type with empty parentheses, a reference, and tokens behind the first end of input. -/
theorem grammar_of_tokens_behind_end :
    let token : TokenKind → String → Token := fun kind text => ⟨kind, ascii text, .start⟩
    let body := [token .model "model", token .identifier "A", token .leftBrace "(",
      token .identifier "b", token .type "Int", token .leftParen "(", token .rightParen ")",
      token .decorator "ref", token .leftParen "(", token .identifier "C", token .dot ".",
      token .identifier "d", token .rightParen ")", token .rightBrace ")"]
    let s : Schema := ⟨[⟨ascii "A", [⟨ascii "b", ascii "Int", ⟨true, []⟩,
      [⟨ascii "ref", ⟨true, [ascii "C.d"]⟩⟩]⟩]⟩], []⟩
    Grammar.SchemaRule (body.map Token.lexeme) s ∧ s.Distinct := by
  intro token body s
  have hbody : (body ++ [token .endOfInput "", token .comma ","]).takeWhile
      (·.kind != .endOfInput) = body := by decide +kernel
  have h : ofTokens (body ++ [token .endOfInput "", token .comma ","]) = .ok s := by
    decide +kernel
  have hrule := ((ofTokens_accepts_grammar _).1 s).mp h
  rw [hbody] at hrule
  exact hrule

end SchemaMigration.Schema
