import SchemaMigration.Proofs.Schema.Refusal
import SchemaMigration.Proofs.Schema.Viability

/-!
This module contains how the parser keeps up with the automaton of the grammar: each part of it goes
from one stage to another, and refuses the tokens which the automaton refuses between them. Columns
are refused in addition if the name of a decorator repeats.
-/

namespace SchemaMigration.Schema

/-- Faults of names and models, which the rules for the order of tokens do not see. -/
def Fault.IsSemantic : Fault → Prop
  | .modelWithoutColumns _ | .duplicateDecorator _ _ | .duplicateModel _ => True
  | _ => False

namespace Grammar.Stage

variable {stage stage' : Stage} {b : Bearer} {kind : TokenKind}

theorem next_endOfInput (stage : Stage) : stage.next .endOfInput = none := by
  cases stage
  all_goals rfl

theorem next_outside (hmodel : kind ≠ .model) (hraw : kind ≠ .rawSql) :
    outside.next kind = none := by
  cases kind with
  | model => exact absurd rfl hmodel
  | rawSql => exact absurd rfl hraw
  | _ => rfl

def only? : Stage → Option TokenKind
  | keyword | openBrace | dot => some .identifier
  | modelName => some .leftBrace
  | columnName => some .type
  | _ => none

theorem next_of_only {other : TokenKind} (honly : stage.only? = some kind) (hother : other ≠ kind) :
    stage.next other = none := by
  cases stage with
  | keyword | openBrace | dot =>
    cases honly
    cases other with
    | identifier => exact absurd rfl hother
    | _ => rfl
  | modelName =>
    cases honly
    cases other with
    | leftBrace => exact absurd rfl hother
    | _ => rfl
  | columnName =>
    cases honly
    cases other with
    | type => exact absurd rfl hother
    | _ => rfl
  | _ => cases honly

theorem inColumn_eq_none (hdecorator : kind ≠ .decorator) (hidentifier : kind ≠ .identifier)
    (hright : kind ≠ .rightBrace) : inColumn kind = none := by
  cases kind with
  | decorator => exact absurd rfl hdecorator
  | identifier => exact absurd rfl hidentifier
  | rightBrace => exact absurd rfl hright
  | _ => rfl

theorem value_eq_none (hstring : kind ≠ .string) (hnumber : kind ≠ .number)
    (hidentifier : kind ≠ .identifier) : value b kind = none := by
  cases kind with
  | string => exact absurd rfl hstring
  | number => exact absurd rfl hnumber
  | identifier => exact absurd rfl hidentifier
  | _ => rfl

theorem behindArgument_eq_none (hcomma : kind ≠ .comma) (hright : kind ≠ .rightParen) :
    behindArgument b kind = none := by
  cases kind with
  | comma => exact absurd rfl hcomma
  | rightParen => exact absurd rfl hright
  | _ => rfl

/--
The tokens from the first one on that does not belong where it stands. There are none of them if
only the end of input does not.
-/
def refused (stage : Stage) : List Token → Option (List Token)
  | [] => if stage = outside then none else some []
  | t :: ts =>
    match stage.next t.kind with
    | some stage' => refused stage' ts
    | none => some (t :: ts)

theorem exists_of_refused {ts rest : List Token} (h : stage.refused ts = some rest) :
    ∃ used stage', ts = used ++ rest ∧ stage.run (used.map Token.lexeme) = some stage' ∧
      (rest = [] → stage' ≠ outside) ∧ ∀ t ∈ rest.head?, stage'.next t.kind = none := by
  induction ts generalizing stage with
  | nil =>
    unfold refused at h
    split at h
    . cases h
    . next hstage =>
      cases h
      exact ⟨[], stage, rfl, rfl, fun _ => hstage, nofun⟩
  | cons t ts ih =>
    unfold refused at h
    split at h
    . next hnext =>
      obtain ⟨used, stage', rfl, hrun, hend, hhead⟩ := ih h
      refine ⟨t :: used, stage', rfl, ?_, hend, hhead⟩
      rw [List.map_cons, run_cons_of_next hnext]
      exact hrun
    . next hnext =>
      cases h
      refine ⟨[], stage, rfl, rfl, nofun, ?_⟩
      rintro _ ⟨⟩
      exact hnext

end Grammar.Stage

namespace Parser

open Grammar Grammar.Stage

variable {finish : Position} {ts rest : List Token} {stage stage' : Stage} {e : ParseError}

theorem refused_of_next (h : stage.next (peek finish ts).kind = some stage') :
    stage.refused ts = stage'.refused ts.tail := by
  cases ts with
  | nil =>
    rw [show (peek finish []).kind = .endOfInput from rfl, next_endOfInput] at h
    cases h
  | cons t ts =>
    have hnext : stage.next t.kind = some stage' := h
    rw [refused, hnext]
    rfl

theorem refused_of_kind {kind : TokenKind} (hkind : (peek finish ts).kind = kind)
    (hnext : stage.next kind = some stage') : stage.refused ts = stage'.refused ts.tail := by
  apply refused_of_next
  rw [hkind]
  exact hnext

theorem refused_self (hnext : stage.next (peek finish ts).kind = none)
    (hstage : ts = [] → stage ≠ .outside) : stage.refused ts = some ts := by
  cases ts with
  | nil =>
    rw [refused, if_neg (hstage rfl)]
  | cons t ts =>
    have hnext : stage.next t.kind = none := hnext
    rw [refused, hnext]

/-- Two stages that go on alike with the front token refuse the same tokens. -/
theorem refused_congr (h : stage.next (peek finish ts).kind = stage'.next (peek finish ts).kind)
    (hstage : stage ≠ .outside) (hstage' : stage' ≠ .outside) :
    stage.refused ts = stage'.refused ts := by
  cases hnext : stage'.next (peek finish ts).kind with
  | none => rw [refused_self (h.trans hnext) fun _ => hstage, refused_self hnext fun _ => hstage']
  | some next => rw [refused_of_next (h.trans hnext), refused_of_next hnext]

def Blames (finish : Position) (stage : Stage) (ts : List Token) (e : ParseError) : Prop :=
  ¬ e.fault.IsSemantic ∧
    ∃ rest, stage.refused ts = some rest ∧ e.position = (peek finish rest).position

theorem Blames.of_refused (h : Blames finish stage' rest e)
    (hrefused : stage.refused ts = stage'.refused rest) : Blames finish stage ts e := by
  obtain ⟨hfault, after, hafter, hposition⟩ := h
  exact ⟨hfault, after, hrefused.trans hafter, hposition⟩

theorem blames_peek {fault : Fault} (hfault : ¬ fault.IsSemantic)
    (hnext : stage.next (peek finish ts).kind = none) (hstage : ts = [] → stage ≠ .outside) :
    Blames finish stage ts ⟨fault, (peek finish ts).position⟩ :=
  ⟨hfault, ts, refused_self hnext hstage, rfl⟩

section Expect

variable {kind : TokenKind} {what : Expectation}

theorem expect_refused {t : Token} (h : expect finish kind what ts = .ok (t, rest))
    (hnext : stage.next kind = some stage') : stage.refused ts = stage'.refused rest := by
  unfold expect at h
  split at h
  . next hkind =>
    cases h
    exact refused_of_kind hkind hnext
  . cases h

theorem expect_blames (h : expect finish kind what ts = .error e)
    (hnext : (peek finish ts).kind ≠ kind → stage.next (peek finish ts).kind = none)
    (hstage : stage ≠ .outside) : Blames finish stage ts e := by
  unfold expect at h
  split at h
  . cases h
  . next hkind =>
    cases h
    exact blames_peek nofun (hnext hkind) fun _ => hstage

theorem expect_blames_of_only (stage : Stage) (h : expect finish kind what ts = .error e)
    (honly : stage.only? = some kind) : Blames finish stage ts e := by
  apply expect_blames h (next_of_only honly)
  rintro rfl
  cases honly

end Expect

/-- A parser that goes from one stage to another, and refuses what the automaton refuses between. -/
structure Tracks {α : Type} (finish : Position)
    (parser : List Token → Except ParseError (α × List Token)) (stage stage' : Stage) : Prop where
  ok : ∀ {ts rest : List Token} {a : α}, parser ts = .ok (a, rest) →
    stage.refused ts = stage'.refused rest
  error : ∀ {ts : List Token} {e : ParseError}, parser ts = .error e → Blames finish stage ts e

theorem typeArgument_tracks :
    Tracks finish (typeArgument finish) (.comma .type) (.argument .type) where
  ok := by
    intro ts rest a h
    unfold typeArgument at h
    split at h
    . next hkind =>
      cases h
      exact refused_of_kind hkind rfl
    . next hkind =>
      cases h
      exact refused_of_kind hkind rfl
    . next hkind =>
      cases h
      exact refused_of_kind hkind rfl
    . cases h
  error := by
    intro ts e h
    unfold typeArgument at h
    split at h
    . cases h
    . cases h
    . cases h
    . next hstring hnumber hidentifier =>
      cases h
      exact blames_peek nofun (value_eq_none hstring hnumber hidentifier) (fun _ => nofun)

theorem decoratorArgument_tracks :
    Tracks finish (decoratorArgument finish) (.comma .decorator) (.argument .decorator) where
  ok := by
    intro ts rest a h
    unfold decoratorArgument at h
    split at h
    . next hkind =>
      cases h
      exact refused_of_kind hkind rfl
    . next hkind =>
      cases h
      exact refused_of_kind hkind rfl
    . next hkind =>
      have htable : (Stage.comma .decorator).next .identifier = some .table := rfl
      rw [refused_of_kind hkind htable]
      split at h
      . next hdot =>
        obtain ⟨⟨column, after⟩, hexpect, hok⟩ := bind_eq_ok.mp h
        cases hok
        have hcolumn : Stage.dot.next .identifier = some (.argument .decorator) := rfl
        rw [refused_of_kind hdot rfl]
        exact expect_refused hexpect hcolumn
      . next hdot =>
        cases h
        exact refused_congr (next_table hdot) nofun nofun
    . cases h
  error := by
    intro ts e h
    unfold decoratorArgument at h
    split at h
    . cases h
    . cases h
    . next hkind =>
      split at h
      . next hdot =>
        obtain herror | ⟨_, _, hok⟩ := bind_eq_error.mp h
        . apply (expect_blames_of_only .dot herror rfl).of_refused
          rw [refused_of_kind hkind rfl]
          exact refused_of_kind hdot rfl
        . cases hok
      . cases h
    . next hstring hnumber hidentifier =>
      cases h
      exact blames_peek nofun (value_eq_none hstring hnumber hidentifier) (fun _ => nofun)

section Arguments

variable {argument : List Token → Except ParseError (Text × List Token)} {close : Expectation}
  {Argument : List Lexeme → Text → Prop} {b : Bearer} {fuel : Nat}

theorem arguments_refused (hargument : Tracks finish argument (.comma b) (.argument b))
    {args : List Text} (h : arguments finish argument close fuel ts = .ok (args, rest)) :
    (Stage.comma b).refused ts = Stage.closeParen.refused rest := by
  induction fuel generalizing ts args with
  | zero => cases h
  | succ fuel ih =>
    unfold arguments at h
    obtain ⟨⟨arg, after⟩, harg, hok⟩ := bind_eq_ok.mp h
    rw [hargument.ok harg]
    dsimp only at hok
    split at hok
    . next hcomma =>
      obtain ⟨⟨more, last⟩, hmore, hok⟩ := bind_eq_ok.mp hok
      cases hok
      rw [refused_of_kind hcomma rfl]
      exact ih hmore
    . obtain ⟨⟨t, last⟩, hexpect, hok⟩ := bind_eq_ok.mp hok
      cases hok
      exact expect_refused hexpect rfl

theorem arguments_blames (hsound : Sound argument Argument)
    (hargument : Tracks finish argument (.comma b) (.argument b)) (hfuel : ts.length < fuel)
    (h : arguments finish argument close fuel ts = .error e) :
    Blames finish (.comma b) ts e := by
  induction fuel generalizing ts with
  | zero => cases hfuel
  | succ fuel ih =>
    unfold arguments at h
    obtain herror | ⟨⟨arg, after⟩, harg, h⟩ := bind_eq_error.mp h
    . exact hargument.error herror
    . dsimp only at h
      split at h
      . next hcomma =>
        obtain herror | ⟨_, _, hok⟩ := bind_eq_error.mp h
        . -- The comma is taken off, so there are tokens enough for the rest of the count.
          have hlength : after.tail.length < fuel := by
            have hafter := (hsound.suffix harg).length_le
            have hcons := congrArg List.length (eq_cons_of_peek hcomma (by decide))
            rw [List.length_cons] at hcons
            omega
          apply (ih hlength herror).of_refused
          rw [hargument.ok harg]
          exact refused_of_kind hcomma rfl
        . cases hok
      . next hcomma =>
        obtain herror | ⟨_, _, hok⟩ := bind_eq_error.mp h
        . apply Blames.of_refused _ (hargument.ok harg)
          exact expect_blames herror (behindArgument_eq_none hcomma) (by rintro ⟨⟩)
        . cases hok

theorem optionalArguments_tracks (hsound : Sound argument Argument)
    (hargument : Tracks finish argument (.comma b) (.argument b)) :
    Tracks finish (optionalArguments finish argument close) (.bearer b) .closeParen where
  ok := by
    intro ts rest args? h
    unfold optionalArguments at h
    split at h
    . next hleft =>
      have hopen : (Stage.bearer b).next .leftParen = some (.openParen b) := rfl
      rw [refused_of_kind hleft hopen]
      split at h
      . next hright =>
        cases h
        exact refused_of_kind hright rfl
      . next hright =>
        obtain ⟨⟨args, after⟩, hargs, hok⟩ := bind_eq_ok.mp h
        cases hok
        rw [refused_congr (next_openParen hright) nofun nofun]
        exact arguments_refused hargument hargs
    . next hleft =>
      cases h
      exact refused_congr (next_bearer hleft) nofun nofun
  error := by
    intro ts e h
    unfold optionalArguments at h
    split at h
    . next hleft =>
      split at h
      . cases h
      . next hright =>
        obtain herror | ⟨_, _, hok⟩ := bind_eq_error.mp h
        . have hlength : ts.tail.length < ts.length + 1 := by
            rw [List.length_tail]
            omega
          apply (arguments_blames hsound hargument hlength herror).of_refused
          rw [refused_of_kind hleft rfl]
          exact refused_congr (next_openParen hright) nofun nofun
        . cases hok
    . cases h

end Arguments

theorem typeArguments_tracks (close : Expectation) :
    Tracks finish (optionalArguments finish (typeArgument finish) close) (.bearer .type)
      .closeParen :=
  optionalArguments_tracks typeArgument_sound typeArgument_tracks

theorem decoratorArguments_tracks (close : Expectation) :
    Tracks finish (optionalArguments finish (decoratorArgument finish) close) (.bearer .decorator)
      .closeParen :=
  optionalArguments_tracks decoratorArgument_sound decoratorArgument_tracks

theorem decorators_refused {column : Text} {fuel : Nat} {seen : List Text} {ds : List Decorator}
    (hfuel : ts.length ≤ fuel) (h : decorators finish column fuel seen ts = .ok (ds, rest)) :
    Stage.closeParen.refused ts = Stage.closeParen.refused rest ∧
      (peek finish rest).kind ≠ .decorator := by
  induction fuel generalizing ts seen ds with
  | zero =>
    obtain rfl : ts = [] := List.length_eq_zero_iff.mp (Nat.le_zero.mp hfuel)
    cases h
    exact ⟨rfl, nofun⟩
  | succ fuel ih =>
    unfold decorators at h
    split at h
    . next hkind =>
      obtain ⟨⟨args?, after⟩, hargs, h⟩ := bind_eq_ok.mp h
      dsimp only at h
      split at h
      . cases h
      . obtain ⟨⟨more, last⟩, hmore, hok⟩ := bind_eq_ok.mp h
        cases hok
        have hlength : after.length ≤ fuel := by
          have hafter := ((optionalArguments_sound decoratorArgument_sound).suffix hargs).length_le
          rw [List.length_tail] at hafter
          omega
        rw [refused_of_kind hkind rfl, (decoratorArguments_tracks _).ok hargs]
        exact ih hlength hmore
    . next hkind =>
      cases h
      exact ⟨rfl, hkind⟩

def RepeatsName (column : Text) (seen : List Text) (ts : List Token) (e : ParseError) : Prop :=
  ∃ used t rest ds, ts = used ++ t :: rest ∧ Repeated DecoratorRule (used.map Token.lexeme) ds ∧
    Fresh (·.name) seen ds ∧ t.kind = .decorator ∧
    (t.text ∈ seen ∨ t.text ∈ ds.map (·.name)) ∧
    e = ⟨.duplicateDecorator t.text column, t.position⟩

theorem decorators_error {column : Text} {fuel : Nat} {seen : List Text}
    (h : decorators finish column fuel seen ts = .error e) :
    Blames finish .closeParen ts e ∨ RepeatsName column seen ts e := by
  induction fuel generalizing ts seen with
  | zero => cases h
  | succ fuel ih =>
    unfold decorators at h
    split at h
    . next hkind =>
      have hts := eq_cons_of_peek hkind (by decide)
      obtain herror | ⟨⟨args?, after⟩, hargs, h⟩ := bind_eq_error.mp h
      . left
        apply ((decoratorArguments_tracks _).error herror).of_refused
        exact refused_of_kind hkind rfl
      . -- The name is looked up behind the arguments, so what is wrong with these comes first.
        dsimp only at h
        split at h
        . next hseen =>
          right
          cases h
          refine ⟨[], peek finish ts, ts.tail, [], hts, .nil, fresh_nil, hkind, ?_, rfl⟩
          left
          simpa using hseen
        . next hseen =>
          obtain herror | ⟨_, _, hok⟩ := bind_eq_error.mp h
          . obtain hblames | ⟨used', t, rest, ds, rfl, hrules, hfresh, ht, hmem, rfl⟩ := ih herror
            . left
              apply hblames.of_refused
              rw [refused_of_kind hkind rfl]
              exact (decoratorArguments_tracks _).ok hargs
            . right
              obtain ⟨used, htail, hrule⟩ := optionalArguments_sound decoratorArgument_sound hargs
              have hnew : (peek finish ts).text ∉ seen := by simpa using hseen
              refine ⟨peek finish ts :: used ++ used', t, rest,
                ⟨(peek finish ts).text, .ofOption args?⟩ :: ds, ?_, ?_,
                fresh_cons.mpr ⟨hnew, hfresh⟩, ht, ?_, rfl⟩
              . rw [htail] at hts
                rw [List.append_assoc]
                exact hts
              . rw [List.map_append, List.map_cons, lexeme_of_kind hkind]
                exact .cons (.mk _ hrule) hrules
              . simp only [List.mem_cons] at hmem
                simp only [List.map_cons, List.mem_cons]
                grind
          . cases hok
    . cases h

structure AwaitsColumn (finish : Position) (stage : Stage) (ts : List Token) : Prop where
  ne_outside : stage ≠ .outside
  identifier : stage.next .identifier = some .columnName
  other : (peek finish ts).kind ≠ .identifier → (peek finish ts).kind ≠ .rightBrace →
    stage.next (peek finish ts).kind = none

theorem awaitsColumn_openBrace : AwaitsColumn finish .openBrace ts :=
  ⟨nofun, rfl, fun hkind _ => next_of_only rfl hkind⟩

theorem awaitsColumn_closeParen (h : (peek finish ts).kind ≠ .decorator) :
    AwaitsColumn finish .closeParen ts :=
  ⟨nofun, rfl, inColumn_eq_none h⟩

theorem column_refused {c : Column} (hstage : AwaitsColumn finish stage ts)
    (h : column finish ts = .ok (c, rest)) :
    stage.refused ts = Stage.closeParen.refused rest ∧ AwaitsColumn finish .closeParen rest := by
  unfold column at h
  obtain ⟨⟨name, ts₁⟩, hname, h⟩ := bind_eq_ok.mp h
  obtain ⟨⟨type, ts₂⟩, htype, h⟩ := bind_eq_ok.mp h
  obtain ⟨⟨typeArgs?, ts₃⟩, hargs, h⟩ := bind_eq_ok.mp h
  obtain ⟨⟨ds, ts₄⟩, hds, h⟩ := bind_eq_ok.mp h
  cases h
  obtain ⟨hrefused, hkind⟩ := decorators_refused (Nat.le_refl _) hds
  refine ⟨?_, awaitsColumn_closeParen hkind⟩
  have hbearer : Stage.columnName.next .type = some (.bearer .type) := rfl
  rw [expect_refused hname hstage.identifier, expect_refused htype hbearer,
    (typeArguments_tracks _).ok hargs]
  exact hrefused

def RepeatsDecorator (ts : List Token) (e : ParseError) : Prop :=
  ∃ used t rest c, ts = used ++ t :: rest ∧ ColumnRule (used.map Token.lexeme) c ∧ c.Distinct ∧
    t.kind = .decorator ∧ t.text ∈ c.decorators.map (·.name) ∧
    e = ⟨.duplicateDecorator t.text c.name, t.position⟩

theorem column_error (hstage : AwaitsColumn finish stage ts)
    (hkind : (peek finish ts).kind ≠ .rightBrace) (h : column finish ts = .error e) :
    Blames finish stage ts e ∨ RepeatsDecorator ts e := by
  unfold column at h
  obtain herror | ⟨⟨name, ts₁⟩, hname, h⟩ := bind_eq_error.mp h
  . exact .inl (expect_blames herror (fun hother => hstage.other hother hkind) hstage.ne_outside)
  have hrefused₁ := expect_refused hname hstage.identifier
  obtain herror | ⟨⟨type, ts₂⟩, htype, h⟩ := bind_eq_error.mp h
  . exact .inl ((expect_blames_of_only .columnName herror rfl).of_refused hrefused₁)
  have hbearer : Stage.columnName.next .type = some (.bearer .type) := rfl
  have hrefused₂ := hrefused₁.trans (expect_refused htype hbearer)
  obtain herror | ⟨⟨typeArgs?, ts₃⟩, hargs, h⟩ := bind_eq_error.mp h
  . exact .inl (((typeArguments_tracks _).error herror).of_refused hrefused₂)
  have hrefused₃ := hrefused₂.trans ((typeArguments_tracks _).ok hargs)
  obtain herror | ⟨_, _, hok⟩ := bind_eq_error.mp h
  . obtain hblames | ⟨used', t, rest, ds, rfl, hrules, hfresh, ht, hmem, rfl⟩ :=
      decorators_error herror
    . exact .inl (hblames.of_refused hrefused₃)
    . right
      obtain ⟨rfl, hnameLexeme⟩ := expect_ok hname nofun
      obtain ⟨rfl, htypeLexeme⟩ := expect_ok htype nofun
      obtain ⟨used, rfl, hrule⟩ := optionalArguments_sound typeArgument_sound hargs
      refine ⟨name :: type :: used ++ used', t, rest,
        ⟨name.text, type.text, .ofOption typeArgs?, ds⟩, by simp, ?_, hfresh.distinct, ht, ?_, rfl⟩
      . rw [List.map_append, List.map_cons, List.map_cons, hnameLexeme, htypeLexeme]
        exact .mk _ _ hrule hrules
      . simpa using hmem
  . cases hok

theorem columns_refused {fuel : Nat} {cs : List Column} (hfuel : ts.length ≤ fuel)
    (hstage : AwaitsColumn finish stage ts) (h : columns finish fuel ts = .ok (cs, rest)) :
    ((peek finish rest).kind = .rightBrace ∨ (peek finish rest).kind = .endOfInput) ∧
      (cs = [] ∧ rest = ts ∨ cs ≠ [] ∧ stage.refused ts = Stage.closeParen.refused rest) := by
  induction fuel generalizing ts stage cs with
  | zero =>
    obtain rfl : ts = [] := List.length_eq_zero_iff.mp (Nat.le_zero.mp hfuel)
    cases h
    exact ⟨.inr rfl, .inl ⟨rfl, rfl⟩⟩
  | succ fuel ih =>
    unfold columns at h
    split at h
    . next hkind =>
      cases h
      exact ⟨.inl hkind, .inl ⟨rfl, rfl⟩⟩
    . next hkind =>
      cases h
      exact ⟨.inr hkind, .inl ⟨rfl, rfl⟩⟩
    . obtain ⟨⟨first, ts₁⟩, hfirst, h⟩ := bind_eq_ok.mp h
      obtain ⟨⟨more, ts₂⟩, hmore, h⟩ := bind_eq_ok.mp h
      cases h
      obtain ⟨hrefused, hstage₁⟩ := column_refused hstage hfirst
      have hlength : ts₁.length ≤ fuel := by
        obtain ⟨used, rfl, hrule, _⟩ := column_sound hfirst
        cases used with
        | nil => cases hrule
        | cons t used =>
          rw [List.cons_append, List.length_cons, List.length_append] at hfuel
          omega
      obtain ⟨hkind, hcases⟩ := ih hlength hstage₁ hmore
      refine ⟨hkind, .inr ⟨nofun, ?_⟩⟩
      obtain ⟨_, rfl⟩ | ⟨_, hrefused'⟩ := hcases
      . exact hrefused
      . exact hrefused.trans hrefused'

theorem columns_error {fuel : Nat} (hstage : AwaitsColumn finish stage ts)
    (h : columns finish fuel ts = .error e) :
    Blames finish stage ts e ∨ ∃ before after cs, ts = before ++ after ∧
      Repeated ColumnRule (before.map Token.lexeme) cs ∧ RepeatsDecorator after e := by
  induction fuel generalizing ts stage with
  | zero => cases h
  | succ fuel ih =>
    unfold columns at h
    split at h
    . cases h
    . cases h
    . next hright _ =>
      obtain herror | ⟨⟨first, ts₁⟩, hfirst, h⟩ := bind_eq_error.mp h
      . obtain hblames | hrepeats := column_error hstage hright herror
        . exact .inl hblames
        . exact .inr ⟨[], ts, [], rfl, .nil, hrepeats⟩
      . obtain herror | ⟨_, _, hok⟩ := bind_eq_error.mp h
        . obtain ⟨hrefused, hstage₁⟩ := column_refused hstage hfirst
          obtain hblames | ⟨before, after, cs, rfl, hcs, hrepeats⟩ := ih hstage₁ herror
          . exact .inl (hblames.of_refused hrefused)
          . obtain ⟨used, rfl, hrule, _⟩ := column_sound hfirst
            refine .inr ⟨used ++ before, after, first :: cs, by simp, ?_, hrepeats⟩
            rw [List.map_append]
            exact .cons hrule hcs
        . cases hok

theorem model_refused {m : Model} (h : model finish ts = .ok (m, rest)) :
    Stage.keyword.refused ts = Stage.outside.refused rest := by
  unfold model at h
  obtain ⟨⟨name, ts₁⟩, hname, h⟩ := bind_eq_ok.mp h
  obtain ⟨⟨left, ts₂⟩, hleft, h⟩ := bind_eq_ok.mp h
  obtain ⟨⟨cs, ts₃⟩, hcs, h⟩ := bind_eq_ok.mp h
  have hmodelName : Stage.keyword.next .identifier = some .modelName := rfl
  have hopenBrace : Stage.modelName.next .leftBrace = some .openBrace := rfl
  rw [expect_refused hname hmodelName, expect_refused hleft hopenBrace]
  dsimp only at h
  split at h
  . cases h
  . next hempty =>
    obtain ⟨⟨right, ts₄⟩, hright, h⟩ := bind_eq_ok.mp h
    cases h
    obtain ⟨_, ⟨rfl, _⟩ | ⟨_, hrefused⟩⟩ :=
      columns_refused (Nat.le_refl _) awaitsColumn_openBrace hcs
    . exact absurd rfl hempty
    . rw [hrefused]
      exact expect_refused hright rfl

end Parser

end SchemaMigration.Schema
