import SchemaMigration.Proofs.Schema.RoundTrip
import SchemaMigration.Proofs.Schema.Tokenizing

/-!
This module contains that the tests by which the printer leaves out quotes agree with the lexer: a
text passes one exactly if the lexer reads it as a single word, number or reference. So an argument
is written without quotes exactly if it is read back as it is.
-/

namespace SchemaMigration.Schema

open Grammar

def Lexes (source : Text) (xs : List Lexeme) : Prop :=
  ∃ tokens, tokenize source = .ok tokens ∧ tokens.map Token.lexeme = xs

def Lexeme.finish : Lexeme := (.endOfInput, [])

theorem Reads.lexes {source : Text} {xs : List Lexeme} (h : Reads true source xs) :
    Lexes source (xs ++ [.finish]) := by
  obtain ⟨body, finish, htokens, _, rfl⟩ := tokens_of_reads h
  exact ⟨_, htokens, List.map_append⟩

theorem exists_layout_of_tokenize {source : Text} {tokens : List Token}
    (h : tokenize source = .ok tokens) :
    ∃ layout : Layout, layout.source = source ∧ layout.IsValid [] ∧ layout.tokens [] = tokens :=
  tokenize.exists_layout rfl (Nat.le_refl _) h

/-- The kind and the text are those of a token that can be written down. -/
def Lexeme.Spelled (x : Lexeme) : Prop := ∃ before after source, Spells before after x.1 x.2 source

theorem Layout.spelled_of_mem {layout : Layout} {before : Text} (h : layout.IsValid before)
    {t : Token} (ht : t ∈ layout.tokens before) : t.kind = .endOfInput ∨ t.lexeme.Spelled := by
  induction layout generalizing before with
  | finish gap =>
    cases ht with
    | head => exact .inl rfl
    | tail _ ht => cases ht
  | lexeme gap kind text source rest ih =>
    obtain ⟨_, hspells, hrest⟩ := h
    cases ht with
    | head => exact .inr ⟨_, _, _, hspells⟩
    | tail _ ht => exact ih hrest ht

theorem spelled_of_mem_tokens {source : Text} {tokens : List Token}
    (h : tokenize source = .ok tokens) {t : Token} (ht : t ∈ tokens)
    (hkind : t.kind ≠ .endOfInput) : t.lexeme.Spelled := by
  obtain ⟨layout, _, hvalid, rfl⟩ := exists_layout_of_tokenize h
  exact (Layout.spelled_of_mem hvalid ht).resolve_left hkind

theorem Lexes.spelled {source : Text} {xs : List Lexeme} (h : Lexes source xs) {x : Lexeme}
    (hx : x ∈ xs) (hkind : x.1 ≠ .endOfInput) : x.Spelled := by
  obtain ⟨tokens, htokens, rfl⟩ := h
  obtain ⟨t, ht, rfl⟩ := List.mem_map.mp hx
  exact spelled_of_mem_tokens htokens ht hkind

theorem IsName.ne_dot {t : Text} (h : IsName t) : ∀ b ∈ t, (b == byte '.') = false := by
  intro b hb
  apply beq_false_of_class (p := Byte.isWordPart) _ rfl
  cases t with
  | nil => cases hb
  | cons first rest =>
    cases hb with
    | head => exact isWordPart_of_isWordStart h.1.1
    | tail _ hb => exact h.1.2 b hb

theorem isBareReference_iff {t : Text} :
    isBareReference t = true ↔
      ∃ table column, t = table ++ byte '.' :: column ∧ IsName table ∧ IsName column := by
  constructor
  . intro h
    obtain ⟨table, column, _, ht, htable, hcolumn⟩ := isBareReference_split h
    exact ⟨table, column, ht, htable, hcolumn⟩
  . rintro ⟨table, column, rfl, htable, hcolumn⟩
    unfold isBareReference
    rw [splitFirst_dot htable.ne_dot]
    simp only [Bool.and_eq_true, isBareWord_iff]
    exact ⟨htable, hcolumn⟩

namespace Lexeme.Spelled

theorem isName {t : Text} (h : Spelled (.identifier, t)) : IsName t := by
  obtain ⟨_, _, _, hspells⟩ := h
  exact hspells.valid

theorem isBareWord {t : Text} (h : Spelled (.identifier, t)) : isBareWord t = true :=
  (isBareWord_iff t).mpr h.isName

theorem isBareNumber {t : Text} (h : Spelled (.number, t)) : isBareNumber t = true := by
  obtain ⟨before, after, source, hspells⟩ := h
  apply isBareNumber_iff.mpr
  cases hspells with
  | punctuation h => simp [punctuationMarks] at h
  | integer hdigits _ _ => exact .inl hdigits
  | fraction hwhole hplaces _ => exact .inr ⟨_, _, rfl, hwhole, hplaces⟩

theorem eq_dot {t : Text} (h : Spelled (.dot, t)) : t = [byte '.'] := by
  obtain ⟨before, after, source, hspells⟩ := h
  cases hspells with
  | punctuation h =>
    simp only [punctuationMarks] at h
    simpa using h

end Lexeme.Spelled

theorem isBareWord_iff_lexes (t : Text) :
    isBareWord t = true ↔ Lexes t [(.identifier, t), .finish] := by
  constructor
  . intro h
    have hread : Reads true (t ++ []) [(.identifier, t)] :=
      .name ((isBareWord_iff t).mp h) trivial .nil
    rw [List.append_nil] at hread
    exact hread.lexes
  . intro h
    exact (h.spelled List.mem_cons_self nofun).isBareWord

theorem isBareNumber_iff_lexes (t : Text) :
    isBareNumber t = true ↔ Lexes t [(.number, t), .finish] := by
  constructor
  . intro h
    have hread : Reads true (t ++ []) [(.number, t)] := .number h trivial .nil
    rw [List.append_nil] at hread
    exact hread.lexes
  . intro h
    exact (h.spelled List.mem_cons_self nofun).isBareNumber

theorem isBareReference_iff_lexes (t : Text) :
    isBareReference t = true ↔
      ∃ table dot column,
        Lexes t [(.identifier, table), (.dot, dot), (.identifier, column), .finish] ∧
          table ++ dot ++ column = t := by
  constructor
  . intro h
    obtain ⟨table, column, rfl, htable, hcolumn⟩ := isBareReference_iff.mp h
    have hcolumnRead : ∀ lineStart, Reads lineStart (column ++ []) [(.identifier, column)] :=
      fun _ => .name hcolumn trivial .nil
    have hread : Reads true (table ++ byte '.' :: (column ++ []))
        [(.identifier, table), (.dot, [byte '.']), (.identifier, column)] :=
      .name htable rfl fun _ => .punctuation rfl hcolumnRead
    rw [List.append_nil] at hread
    exact ⟨table, [byte '.'], column, hread.lexes, List.append_assoc _ _ _⟩
  . rintro ⟨table, dot, column, h, rfl⟩
    have htable : Lexeme.Spelled (.identifier, table) := h.spelled (by simp) nofun
    have hdot : Lexeme.Spelled (.dot, dot) := h.spelled (by simp) nofun
    have hcolumn : Lexeme.Spelled (.identifier, column) := h.spelled (by simp) nofun
    rw [hdot.eq_dot, List.append_assoc, List.singleton_append]
    apply isBareReference_iff.mpr
    exact ⟨table, column, rfl, htable.isName, hcolumn.isName⟩

/-- The arguments of a decorator or of a type; only those of a decorator have references. -/
def Parser.argumentList (allowReference : Bool) (finish : Position) (tokens : List Token) :
    Except ParseError (Option (List Text) × List Token) :=
  match allowReference with
  | true => optionalArguments finish (decoratorArgument finish) .closeDecoratorArguments tokens
  | false => optionalArguments finish (typeArgument finish) .closeTypeArguments tokens

/-- A text that is written as it is, between parentheses, is read as one argument: the text. -/
def ReadsBare (allowReference : Bool) (t : Text) : Prop :=
  ∃ tokens, tokenize (byte '(' :: t ++ [byte ')']) = .ok tokens ∧
    Parser.argumentList allowReference (endPosition tokens) (bodyTokens tokens) = .ok (some [t], [])

def argumentRule : Bool → List Lexeme → Text → Prop
  | true => DecoratorArgument
  | false => TypeArgument

theorem argumentRule_lexemes (allowReference : Bool) (t : Text) :
    argumentRule allowReference (argumentLexemes allowReference t) t := by
  cases allowReference with
  | true => exact decoratorArgument_lexemes t
  | false => exact typeArgument_lexemes t

theorem Parser.argumentList_sound (allowReference : Bool) (finish : Position) :
    Sound (argumentList allowReference finish) fun xs args? =>
      Parenthesized (argumentRule allowReference) xs (.ofOption args?) := by
  cases allowReference with
  | true => exact optionalArguments_sound decoratorArgument_sound
  | false => exact optionalArguments_sound typeArgument_sound

theorem Parser.argumentList_complete (allowReference : Bool) (finish : Position) :
    Complete (argumentList allowReference finish)
      (fun xs args? => Parenthesized (argumentRule allowReference) xs (.ofOption args?))
      (· ≠ .leftParen) := by
  cases allowReference with
  | true =>
    exact optionalArguments_complete finish (decoratorArgument_complete finish)
      DecoratorArgument.nextKind_ne
  | false =>
    exact optionalArguments_complete finish (typeArgument_complete finish)
      fun h => (DecoratorArgument.value h).nextKind_ne

theorem Parser.argumentList_number (finish : Position) {left number right : Token}
    (rest : List Token) (hleft : left.kind = .leftParen) (hnumber : number.kind = .number)
    (hright : right.kind = .rightParen) :
    argumentList true finish (left :: number :: right :: rest) =
      .ok (some [number.text], rest) := by
  simp [argumentList, optionalArguments, arguments, decoratorArgument, expect, peek, hleft, hnumber,
    hright]

theorem Quotes.length_le {quote : UInt8} {source value : Text} (h : Quotes quote source value) :
    value.length ≤ source.length := by
  induction h with
  | nil => exact Nat.le_refl _
  | plain _ _ _ ih => exact Nat.succ_le_succ ih
  | escaped _ _ ih =>
    simp only [List.length_cons]
    omega

/-- How many bytes of a source a lexeme has at least: a string has its quotes. -/
def Lexeme.width : Lexeme → Nat
  | (.string, t) => t.length + 2
  | (.endOfInput, _) => 0
  | _ => 1

theorem Lexeme.width_le_one {x : Lexeme} (h : x.1 ≠ .string) : x.width ≤ 1 := by
  unfold width
  split
  . exact absurd rfl h
  . exact Nat.zero_le 1
  . exact Nat.le_refl 1

theorem Spells.width_le {before after : Text} {kind : TokenKind} {text source : Text}
    (h : Spells before after kind text source) : Lexeme.width (kind, text) ≤ source.length := by
  by_cases hkind : kind = .string
  . subst hkind
    cases h with
    | punctuation h => simp [punctuationMarks] at h
    | string _ h =>
      have hlength := h.length_le
      simp only [Lexeme.width, List.length_cons, List.length_append, List.length_nil]
      omega
  . have hpositive := List.length_pos_of_ne_nil h.source_ne_nil
    exact Nat.le_trans (Lexeme.width_le_one hkind) hpositive

def totalWidth : List Lexeme → Nat
  | [] => 0
  | x :: xs => x.width + totalWidth xs

theorem Layout.totalWidth_le {layout : Layout} {before : Text} (h : layout.IsValid before) :
    totalWidth ((layout.tokens before).map Token.lexeme) ≤ layout.source.length := by
  induction layout generalizing before with
  | finish gap => exact Nat.zero_le _
  | lexeme gap kind text source rest ih =>
    obtain ⟨_, hspells, hrest⟩ := h
    have hfirst := hspells.width_le
    have hmore := ih hrest
    simp only [Layout.tokens, Layout.source, List.map_cons, totalWidth, List.length_append,
      Token.lexeme] at hmore ⊢
    omega

theorem Lexes.totalWidth_le {source : Text} {xs : List Lexeme} (h : Lexes source xs) :
    totalWidth xs ≤ source.length := by
  obtain ⟨tokens, htokens, rfl⟩ := h
  obtain ⟨layout, rfl, hvalid, rfl⟩ := exists_layout_of_tokenize htokens
  exact Layout.totalWidth_le hvalid

def isBare (allowReference : Bool) (t : Text) : Bool :=
  isBareWord t || isBareNumber t || (allowReference && isBareReference t)

theorem isBare_of_argumentRule {allowReference : Bool} {xs : List Lexeme} {t left right : Text}
    (hrule : argumentRule allowReference xs t)
    (h : Lexes (byte '(' :: t ++ [byte ')'])
      ((.leftParen, left) :: xs ++ [(.rightParen, right), Lexeme.finish])) :
    isBare allowReference t = true := by
  have hvalue : TypeArgument xs t → isBareWord t = true ∨ isBareNumber t = true := by
    intro hrule
    cases hrule with
    | string =>
      -- The quotes of a string would need more bytes than the text has.
      have hwidth := h.totalWidth_le
      simp [totalWidth, Lexeme.width, Lexeme.finish] at hwidth
      omega
    | number => exact .inr (h.spelled (by simp) nofun : Lexeme.Spelled (.number, t)).isBareNumber
    | identifier =>
      exact .inl (h.spelled (by simp) nofun : Lexeme.Spelled (.identifier, t)).isBareWord
  unfold isBare
  rw [Bool.or_eq_true, Bool.or_eq_true]
  cases allowReference with
  | false => exact .inl (hvalue hrule)
  | true =>
    cases hrule with
    | value hrule => exact .inl (hvalue hrule)
    | reference table dot column =>
      have htable : Lexeme.Spelled (.identifier, table) := h.spelled (by simp) nofun
      have hcolumn : Lexeme.Spelled (.identifier, column) := h.spelled (by simp) nofun
      exact .inr (isBareReference_iff.mpr ⟨table, column, rfl, htable.isName, hcolumn.isName⟩)

theorem isBare_of_readsBare {allowReference : Bool} {t : Text} (h : ReadsBare allowReference t) :
    isBare allowReference t = true := by
  obtain ⟨tokens, htokens, hread⟩ := h
  obtain ⟨body, finish, rfl, hvalid⟩ := tokenize.go_valid htokens
  rw [bodyTokens_append hvalid] at hread
  obtain ⟨used, hused, hrule⟩ := Parser.argumentList_sound _ _ hread
  rw [List.append_nil] at hused
  subst hused
  have hlexes : Lexes (byte '(' :: t ++ [byte ')']) (body.map Token.lexeme ++ [Lexeme.finish]) :=
    ⟨_, htokens, List.map_append⟩
  generalize body.map Token.lexeme = xs at hrule hlexes
  cases hrule with
  | values left right hsep =>
    cases hsep with
    | last hrule =>
      rw [List.append_assoc] at hlexes
      exact isBare_of_argumentRule hrule hlexes
    | cons _ _ hs => cases hs

theorem readsBare_of_isBare {allowReference : Bool} {t : Text}
    (h : isBare allowReference t = true) : ReadsBare allowReference t := by
  have hprint : Printer.argument allowReference t = t := if_pos h
  have hprinted : Printer.arguments allowReference (some [t]) = byte '(' :: t ++ [byte ')'] := by
    simp [Printer.arguments, Text.join, hprint]
  have hread := Reads.arguments allowReference (some [t]) Reads.nil true
  rw [hprinted, List.append_nil, List.append_nil] at hread
  obtain ⟨body, finish, htokens, hvalid, hbody⟩ := tokens_of_reads hread
  refine ⟨_, htokens, ?_⟩
  rw [bodyTokens_append hvalid]
  have hrule : Parenthesized (argumentRule allowReference) (parenthesized allowReference (some [t]))
      (.ofOption (some [t])) :=
    .values _ _ (.last (argumentRule_lexemes allowReference t))
  rw [← List.append_nil (parenthesized _ _)] at hbody
  have hend : nextKind [] ≠ .leftParen := by decide
  obtain ⟨rest, hok, hrest⟩ := Parser.argumentList_complete allowReference _ hrule hend hbody
  rw [List.map_eq_nil_iff.mp hrest] at hok
  exact hok

theorem quote_ne_self (t : Text) : Printer.quote t ≠ t := by
  intro h
  have hlength := congrArg List.length h
  have hbody := (Piece.quotes_flatMap_escape t).length_le
  simp only [Printer.quote, Text.inQuotes, List.length_append, List.length_cons,
    List.length_nil] at hlength
  omega

/-- An argument is written as it is exactly if it is then read back, and as a string otherwise. -/
theorem argument_eq_iff_readsBare (allowReference : Bool) (t : Text) :
    (Printer.argument allowReference t = t ↔ ReadsBare allowReference t) ∧
      (Printer.argument allowReference t = Printer.quote t ↔ ¬ ReadsBare allowReference t) := by
  have hreads : ReadsBare allowReference t ↔ isBare allowReference t = true :=
    ⟨isBare_of_readsBare, readsBare_of_isBare⟩
  have hprint : Printer.argument allowReference t =
      if isBare allowReference t then t else Printer.quote t := rfl
  rw [hreads, hprint]
  cases isBare allowReference t with
  | true => simp [(quote_ne_self t).symm]
  | false => simp [quote_ne_self t]

end SchemaMigration.Schema
