import SchemaMigration.Proofs.Schema.Bare
import SchemaMigration.Proofs.Sql.Quoting

/-!
This module contains that a number of a source does not get quotes as a default value, and that all
tests for texts without quotes agree with the lexer.
-/

namespace SchemaMigration.Sql

open Schema

namespace Table

/-- No number is one of the words that are default values of their own. -/
theorem not_keyword_of_isBareNumber {v : Text} (h : isBareNumber v = true) :
    defaultKeywords.contains v.lower = false := by
  have hkeywords : ∀ w ∈ defaultKeywords, w.head?.any Byte.isDigit = false := by decide
  obtain ⟨d, tail, rfl, hd⟩ := head_of_isBareNumber h
  have hlower : Byte.toLower d = d := by
    apply if_neg
    rw [Byte.isUpper_iff]
    rw [Byte.isDigit_iff] at hd
    omega
  rw [← Bool.not_eq_true, List.contains_iff_mem]
  intro hmem
  have hfirst := hkeywords _ hmem
  simp [Text.lower, hlower, hd] at hfirst

theorem defaultValue_of_isBareNumber {v : Text} (h : isBareNumber v = true) (dialect : Dialect) :
    defaultValue dialect v = v := by
  have hnumeric := isNumericLiteral_iff.mpr (.inl h)
  obtain ⟨hkeyword, _⟩ | ⟨_, ⟨_, hvalue⟩ | ⟨hstring, _⟩⟩ := defaultValue_cases dialect v
  . rw [not_keyword_of_isBareNumber h] at hkeyword
    cases hkeyword
  . exact hvalue
  . rw [hnumeric] at hstring
    cases hstring

theorem clause_default {v : Text} (h : isBareNumber v = true) (dialect : Dialect) (c : Column) :
    clause dialect c ⟨ascii "default", .ofOption (some [v])⟩ = ascii " DEFAULT " ++ v := by
  have hknown : Known.ofName? (ascii "default") = some .default := by decide
  unfold clause
  rw [hknown]
  exact congrArg (ascii " DEFAULT " ++ ·) (defaultValue_of_isBareNumber h dialect)

end Table

/--
The tests of the printer and of the statements agree with the lexer. A text is bare exactly if it is
read as one word, one number or one reference, and a numeric literal is a number with or without a
minus sign. So an argument gets no quotes exactly if it is read back without them, and a number of a
source gets none as a default value.
-/
theorem bare_tests_agree_with_lexer :
    (∀ t, isBareWord t = true ↔ Lexes t [(.identifier, t), .finish]) ∧
      (∀ t, isBareNumber t = true ↔ Lexes t [(.number, t), .finish]) ∧
      (∀ t, isBareReference t = true ↔
        ∃ table dot column,
          Lexes t [(.identifier, table), (.dot, dot), (.identifier, column), .finish] ∧
            table ++ dot ++ column = t) ∧
      (∀ t, isNumericLiteral t = true ↔
        isBareNumber t = true ∨ ∃ u, t = byte '-' :: u ∧ isBareNumber u = true) ∧
      (∀ t, isUnsignedInteger t = true ↔ isBareNumber t = true ∧ byte '.' ∉ t) ∧
      (∀ allowReference t,
        (Printer.argument allowReference t = t ↔ ReadsBare allowReference t) ∧
          (Printer.argument allowReference t = Printer.quote t ↔ ¬ ReadsBare allowReference t)) ∧
      ∀ source tokens, tokenize source = .ok tokens →
        ∀ number ∈ tokens, number.kind = .number →
          ∀ finish left right rest, left.kind = .leftParen → right.kind = .rightParen →
            ∃ args?,
              Parser.argumentList true finish (left :: number :: right :: rest) =
                  .ok (args?, rest) ∧
                ∀ dialect column,
                  Table.clause dialect column ⟨ascii "default", .ofOption args?⟩ =
                    ascii " DEFAULT " ++ number.text := by
  refine ⟨isBareWord_iff_lexes, isBareNumber_iff_lexes, isBareReference_iff_lexes,
    fun _ => isNumericLiteral_iff, fun _ => isUnsignedInteger_iff_isBareNumber,
    argument_eq_iff_readsBare, ?_⟩
  intro source tokens htokens number hmem hnumber finish left right rest hleft hright
  have hspelled : number.lexeme.Spelled := by
    apply spelled_of_mem_tokens htokens hmem
    rw [hnumber]
    nofun
  rw [Parser.lexeme_of_kind hnumber] at hspelled
  refine ⟨_, Parser.argumentList_number finish rest hleft hnumber hright, ?_⟩
  intro dialect column
  exact Table.clause_default hspelled.isBareNumber dialect column

/-- A number with places in the parentheses of a default value. -/
theorem bare_tests_agree_with_lexer_at_default :
    let source := ascii "@default(12.50)"
    let left : Schema.Token := ⟨.leftParen, ascii "(", ⟨1, 9⟩⟩
    let number : Schema.Token := ⟨.number, ascii "12.50", ⟨1, 10⟩⟩
    let right : Schema.Token := ⟨.rightParen, ascii ")", ⟨1, 15⟩⟩
    let finish : Schema.Token := ⟨.endOfInput, [], ⟨1, 16⟩⟩
    tokenize source =
        .ok [⟨.decorator, ascii "default", ⟨1, 1⟩⟩, left, number, right, finish] ∧
      ∃ args?,
        Parser.argumentList true finish.position [left, number, right, finish] =
            .ok (args?, [finish]) ∧
          ∀ dialect column,
            Table.clause dialect column ⟨ascii "default", .ofOption args?⟩ =
              ascii " DEFAULT " ++ ascii "12.50" := by
  intro source left number right finish
  have htokens : tokenize source =
      .ok [⟨.decorator, ascii "default", ⟨1, 1⟩⟩, left, number, right, finish] := by
    decide +kernel
  obtain ⟨_, _, _, _, _, _, hdefault⟩ := bare_tests_agree_with_lexer
  refine ⟨htokens, ?_⟩
  exact hdefault source _ htokens number (by simp) rfl finish.position left right [finish] rfl rfl

end SchemaMigration.Sql
