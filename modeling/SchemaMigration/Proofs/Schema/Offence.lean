import SchemaMigration.Proofs.Schema.Tracking

/-!
This module contains where the parser refuses tokens: at the first one that does not belong where it
stands, unless a model has no columns or a name repeats.
-/

namespace SchemaMigration.Schema

open Grammar

/--
What is wrong with the model at the front of tokens, if it is not the order of the tokens. The
models before it have the given names.
-/
inductive ModelOffence (names : List Text) : List Token → ParseError → Prop
  | withoutColumns {keyword name left t : Token} (after : List Token)
    (hkeyword : keyword.kind = .model) (hname : name.kind = .identifier)
    (hleft : left.kind = .leftBrace) (ht : t.kind = .rightBrace ∨ t.kind = .endOfInput) :
    ModelOffence names (keyword :: name :: left :: t :: after)
      ⟨.modelWithoutColumns name.text, name.position⟩
  | repeatedDecorator {keyword name left t : Token} {columns column : List Token}
    {cs : List Column} {c : Column} (after : List Token)
    (hkeyword : keyword.kind = .model) (hname : name.kind = .identifier)
    (hleft : left.kind = .leftBrace) (hcolumns : Repeated ColumnRule (columns.map Token.lexeme) cs)
    (hcolumn : ColumnRule (column.map Token.lexeme) c) (hdistinct : c.Distinct)
    (ht : t.kind = .decorator) (hrepeated : t.text ∈ c.decorators.map (·.name)) :
    ModelOffence names (keyword :: name :: left :: (columns ++ (column ++ t :: after)))
      ⟨.duplicateDecorator t.text c.name, t.position⟩
  | repeatedModel {keyword : Token} {body : List Token} {m : Model} (after : List Token)
    (hmodel : ModelRule ((keyword :: body).map Token.lexeme) m) (hrepeated : m.name ∈ names) :
    ModelOffence names (keyword :: (body ++ after)) ⟨.duplicateModel m.name, keyword.position⟩

theorem ModelOffence.mono {names names' : List Text} {ts : List Token} {e : ParseError}
    (h : ModelOffence names ts e) (hnames : names ⊆ names') : ModelOffence names' ts e := by
  cases h with
  | withoutColumns after hkeyword hname hleft ht =>
    exact .withoutColumns after hkeyword hname hleft ht
  | repeatedDecorator after hkeyword hname hleft hcolumns hcolumn hdistinct ht hrepeated =>
    exact .repeatedDecorator after hkeyword hname hleft hcolumns hcolumn hdistinct ht hrepeated
  | repeatedModel after hmodel hrepeated => exact .repeatedModel after hmodel (hnames hrepeated)

namespace Parser

variable {finish : Position} {ts rest closing : List Token} {e : ParseError}

def Closes (finish : Position) (closing : List Token) : Prop :=
  ∃ t after, closing = t :: after ∧ t.kind = .endOfInput ∧ t.position = finish

theorem Closes.exists_peek (h : Closes finish closing) (ts : List Token) :
    ∃ t after, ts ++ closing = t :: after ∧ t.kind = (peek finish ts).kind ∧
      t.position = (peek finish ts).position := by
  cases ts with
  | nil => exact h
  | cons t ts => exact ⟨t, ts ++ closing, rfl, rfl, rfl⟩

theorem model_error {keyword : Token} {names : List Text} (hclosing : Closes finish closing)
    (hkeyword : keyword.kind = .model) (h : model finish ts = .error e) :
    Blames finish .keyword ts e ∨ ModelOffence names (keyword :: (ts ++ closing)) e := by
  unfold model at h
  obtain herror | ⟨⟨name, ts₁⟩, hname, h₁⟩ := bind_eq_error.mp h
  . exact .inl (expect_blames_of_only .keyword herror rfl)
  have hmodelName : Stage.keyword.next .identifier = some .modelName := rfl
  have hrefused₁ := expect_refused hname hmodelName
  obtain herror | ⟨⟨left, ts₂⟩, hleft, h₂⟩ := bind_eq_error.mp h₁
  . exact .inl ((expect_blames_of_only .modelName herror rfl).of_refused hrefused₁)
  have hopenBrace : Stage.modelName.next .leftBrace = some .openBrace := rfl
  have hrefused₂ := hrefused₁.trans (expect_refused hleft hopenBrace)
  obtain ⟨rfl, hnameLexeme⟩ := expect_ok hname nofun
  obtain ⟨rfl, hleftLexeme⟩ := expect_ok hleft nofun
  have hnameKind : name.kind = .identifier := congrArg Prod.fst hnameLexeme
  have hleftKind : left.kind = .leftBrace := congrArg Prod.fst hleftLexeme
  obtain herror | ⟨⟨cs, ts₃⟩, hcs, h₃⟩ := bind_eq_error.mp h₂
  . obtain hblames | ⟨before, _, cs, rfl, hcs, column, t, rest, c, rfl, hcolumn, hdistinct, ht,
      hrepeated, rfl⟩ := columns_error awaitsColumn_openBrace herror
    . exact .inl (hblames.of_refused hrefused₂)
    . right
      simp only [List.cons_append, List.append_assoc]
      exact .repeatedDecorator (rest ++ closing) hkeyword hnameKind hleftKind hcs hcolumn hdistinct
        ht hrepeated
  obtain ⟨hkind, hcases⟩ := columns_refused (Nat.le_refl _) awaitsColumn_openBrace hcs
  dsimp only at h₃
  split at h₃
  . next hempty =>
    right
    cases h₃
    obtain ⟨_, rfl⟩ | ⟨hne, _⟩ := hcases
    . obtain ⟨t, after, hfront, ht, _⟩ := hclosing.exists_peek ts₃
      rw [List.cons_append, List.cons_append, hfront]
      exact .withoutColumns after hkeyword hnameKind hleftKind (ht ▸ hkind)
    . exact absurd (List.isEmpty_iff.mp hempty) hne
  . next hempty =>
    obtain herror | ⟨_, _, hok⟩ := bind_eq_error.mp h₃
    . left
      obtain ⟨rfl, _⟩ | ⟨_, hrefused⟩ := hcases
      . exact absurd rfl hempty
      . apply Blames.of_refused _ (hrefused₂.trans hrefused)
        refine expect_blames herror ?_ nofun
        -- The columns stop only at a brace and at the end of input.
        intro hright
        rw [hkind.resolve_left hright]
        rfl
    . cases hok

theorem items_error {fuel : Nat} {seen : List Text} (hclosing : Closes finish closing)
    (hfuel : ts.length ≤ fuel) (h : items finish fuel seen ts = .error e) :
    Blames finish .outside ts e ∨ ∃ before after s, ts = before ++ after ∧
      SchemaRule (before.map Token.lexeme) s ∧
      ModelOffence (s.models.map (·.name) ++ seen) (after ++ closing) e := by
  induction fuel generalizing ts seen with
  | zero => cases h
  | succ fuel ih =>
    unfold items at h
    split at h
    . cases h
    . next hkind =>
      have hts := eq_cons_of_peek hkind nofun
      have hkeyword : Stage.outside.next .model = some .keyword := rfl
      have hrefused₁ := refused_of_kind hkind hkeyword
      obtain herror | ⟨⟨first, ts₁⟩, hfirst, h⟩ := bind_eq_error.mp h
      . obtain hblames | hmodel := @model_error _ _ closing _ _ seen hclosing hkind herror
        . exact .inl (hblames.of_refused hrefused₁)
        . right
          refine ⟨[], ts, _, rfl, .nil, ?_⟩
          rw [hts]
          exact hmodel
      . obtain ⟨used, htail, hrule, _⟩ := model_sound (peek finish ts).text hfirst
        rw [htail] at hts
        rw [← lexeme_of_kind hkind, ← List.map_cons] at hrule
        dsimp only at h
        split at h
        . next hseen =>
          right
          cases h
          refine ⟨[], ts, _, rfl, .nil, ?_⟩
          rw [hts, List.cons_append, List.append_assoc]
          exact .repeatedModel _ hrule (by simpa using hseen)
        . obtain herror | ⟨_, _, hok⟩ := bind_eq_error.mp h
          . have hlength : ts₁.length ≤ fuel := by
              rw [hts, List.length_cons, List.length_append] at hfuel
              omega
            obtain hblames | ⟨before, after, s, rfl, hbefore, hmodel⟩ := ih hlength herror
            . left
              apply hblames.of_refused
              exact hrefused₁.trans (model_refused hfirst)
            . right
              refine ⟨peek finish ts :: used ++ before, after,
                { s with models := first :: s.models }, ?_, ?_, hmodel.mono ?_⟩
              . rw [List.append_assoc]
                exact hts
              . rw [List.map_append]
                exact .model hrule hbefore
              . intro name hname
                simp only [List.mem_append, List.mem_cons, List.map_cons] at hname ⊢
                tauto
          . cases hok
    . next hkind =>
      have hts := eq_cons_of_peek hkind nofun
      obtain herror | ⟨_, _, hok⟩ := bind_eq_error.mp h
      . have hlength : ts.tail.length ≤ fuel := by
          rw [List.length_tail]
          omega
        obtain hblames | ⟨before, after, s, htail, hbefore, hmodel⟩ := ih hlength herror
        . exact .inl (hblames.of_refused (refused_of_kind hkind rfl))
        . right
          refine ⟨peek finish ts :: before, after,
            { s with rawSql := (peek finish ts).text :: s.rawSql }, ?_, ?_, hmodel⟩
          . rw [htail] at hts
            exact hts
          . rw [List.map_cons, lexeme_of_kind hkind]
            exact .rawSql _ hbefore
      . cases hok
    . next hend hmodel hraw =>
      left
      cases h
      refine blames_peek nofun (Stage.next_outside hmodel hraw) ?_
      rintro rfl
      exact absurd rfl hend

end Parser

/-- The tokens with an end of input behind them. If it was missing, it stands at the last token. -/
def withEnd (tokens : List Token) : List Token :=
  match tokens.getLast? with
  | none => [⟨.endOfInput, [], .start⟩]
  | some t =>
    if t.kind = .endOfInput then tokens else tokens ++ [⟨.endOfInput, [], t.position⟩]

theorem exists_withEnd_eq_append (ts : List Token) : ∃ more, withEnd ts = ts ++ more := by
  unfold withEnd
  split
  . next hlast =>
    obtain rfl := List.getLast?_eq_none_iff.mp hlast
    exact ⟨_, rfl⟩
  . split
    . exact ⟨[], (List.append_nil ts).symm⟩
    . exact ⟨_, rfl⟩

theorem exists_closes (ts : List Token) :
    ∃ closing, withEnd ts = bodyTokens ts ++ closing ∧ Parser.Closes (endPosition ts) closing := by
  unfold bodyTokens endPosition
  cases hfind : ts.find? (·.kind == .endOfInput) with
  | some t =>
    obtain ⟨ht, before, after, rfl, hbefore⟩ := List.find?_eq_some_iff_append.mp hfind
    obtain ⟨more, hmore⟩ := exists_withEnd_eq_append (before ++ t :: after)
    refine ⟨t :: after ++ more, ?_, t, after ++ more, rfl, by simpa using ht, rfl⟩
    rw [hmore, List.takeWhile_append_of_pos (by simpa using hbefore),
      List.takeWhile_cons_of_neg (by simpa using ht), List.append_nil, List.append_assoc]
  | none =>
    have hall : ∀ t ∈ ts, t.kind ≠ .endOfInput := by simpa using hfind
    have hbody : ts.takeWhile (·.kind != .endOfInput) = ts := by simpa using hall
    rw [hbody]
    unfold withEnd
    cases hlast : ts.getLast? with
    | none =>
      obtain rfl := List.getLast?_eq_none_iff.mp hlast
      exact ⟨_, rfl, _, [], rfl, rfl, rfl⟩
    | some t =>
      have ht := hall t (List.mem_of_getLast? hlast)
      dsimp only
      rw [if_neg ht]
      exact ⟨_, rfl, _, [], rfl, rfl, rfl⟩

/--
What is wrong with tokens, the end of input being the last of them: one of them does not belong
where it stands, while those before it belong there, or else a model is wrong.
-/
inductive Offence (tokens : List Token) (e : ParseError) : Prop
  | order {before after : List Token} {t : Token} (hfault : ¬ e.fault.IsSemantic)
    (htokens : tokens = before ++ t :: after) (hposition : e.position = t.position)
    (hbefore : Viable (before.map Token.lexeme))
    (ht : if t.kind = .endOfInput then ¬ Derivable (before.map Token.lexeme)
      else ¬ Viable ((before ++ [t]).map Token.lexeme))
  | model {before after : List Token} {s : Schema} (htokens : tokens = before ++ after)
    (hbefore : SchemaRule (before.map Token.lexeme) s)
    (hmodel : ModelOffence (s.models.map (·.name)) after e)

theorem Parser.Blames.offence {finish : Position} {ts closing : List Token} {e : ParseError}
    (h : Blames finish .outside ts e) (hclosing : Closes finish closing)
    (hts : ∀ t ∈ ts, t.kind ≠ .endOfInput) : Offence (ts ++ closing) e := by
  obtain ⟨hfault, rest, hrefused, hposition⟩ := h
  obtain ⟨used, stage, rfl, hrun, hend, hnext⟩ := Stage.exists_of_refused hrefused
  obtain ⟨t, after, hfront, hkind, hplace⟩ := hclosing.exists_peek rest
  have htokens : used ++ rest ++ closing = used ++ t :: after := by
    rw [List.append_assoc, hfront]
  refine .order hfault htokens (hposition.trans hplace.symm) (viable_iff.mpr ⟨stage, hrun⟩) ?_
  rw [hkind]
  cases rest with
  | nil =>
    rw [show (peek finish []).kind = .endOfInput from rfl, if_pos rfl, derivable_iff, hrun,
      Option.some_inj]
    exact hend rfl
  | cons t' rest =>
    have ht' : (peek finish (t' :: rest)).kind ≠ .endOfInput := hts t' (by simp)
    have hnext' : stage.next t'.lexeme.1 = none := hnext t' rfl
    obtain ⟨rfl, _⟩ := List.cons.inj hfront
    rw [if_neg ht', viable_iff, List.map_append, List.map_singleton,
      Stage.run_append_of_run hrun, Stage.run_cons, hnext']
    rintro ⟨_, ⟨⟩⟩

/-- Tokens are refused at the first offending one. -/
theorem ofTokens_offence {ts : List Token} {e : ParseError} (h : ofTokens ts = .error e) :
    Offence (withEnd ts) e := by
  obtain ⟨closing, hclosed, hclosing⟩ := exists_closes ts
  rw [hclosed]
  obtain hblames | ⟨before, after, s, hbody, hbefore, hmodel⟩ :=
    Parser.items_error hclosing (Nat.le_refl _) h
  . exact hblames.offence hclosing fun t ht => (mem_bodyTokens ht).2
  . rw [hbody, List.append_assoc]
    rw [List.append_nil] at hmodel
    exact .model rfl hbefore hmodel

/-- Behind the name of a column stands a comma. -/
theorem ofTokens_offence_of_comma :
    let tokens : List Token :=
      [⟨.model, ascii "model", ⟨1, 1⟩⟩, ⟨.identifier, ascii "a", ⟨1, 7⟩⟩,
        ⟨.leftBrace, ascii "\x7b", ⟨1, 9⟩⟩, ⟨.identifier, ascii "b", ⟨2, 1⟩⟩,
        ⟨.comma, ascii ",", ⟨2, 2⟩⟩, ⟨.type, ascii "Serial", ⟨2, 4⟩⟩]
    ofTokens tokens = .error ⟨.expected .columnType, ⟨2, 2⟩⟩ ∧
      Offence (withEnd tokens) ⟨.expected .columnType, ⟨2, 2⟩⟩ :=
  ⟨rfl, ofTokens_offence rfl⟩

end SchemaMigration.Schema
