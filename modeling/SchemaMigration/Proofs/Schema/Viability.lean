import SchemaMigration.Proofs.Schema.Grammar

/-!
This module contains an automaton that reads lexemes one by one. It accepts exactly those from which
the grammar derives a tree, and it goes on exactly as long as they begin such lexemes. So it finds
the first lexeme that does not belong where it stands.
-/

namespace SchemaMigration.Schema.Grammar

def Derivable (xs : List Lexeme) : Prop := ∃ s, SchemaRule xs s

/-- These lexemes begin some from which the grammar derives a tree. -/
def Viable (xs : List Lexeme) : Prop := ∃ ys, Derivable (xs ++ ys)

inductive Bearer where
  | type | decorator
  deriving DecidableEq

def Bearer.Argument : Bearer → List Lexeme → Text → Prop
  | type => TypeArgument
  | decorator => DecoratorArgument

/-- How far lexemes have been read, by the last of them. -/
inductive Stage where
  /-- Models and raw SQL are complete. -/
  | outside
  | keyword
  | modelName
  | openBrace
  | columnName
  /-- A type or a decorator, behind which arguments may stand. -/
  | bearer (b : Bearer)
  | openParen (b : Bearer)
  | comma (b : Bearer)
  /-- An argument that cannot go on. -/
  | argument (b : Bearer)
  /-- An argument of a decorator that can go on with a dot. -/
  | table
  | dot
  | closeParen
  deriving DecidableEq

namespace Stage

def inColumn : TokenKind → Option Stage
  | .decorator => some (bearer .decorator)
  | .identifier => some columnName
  | .rightBrace => some outside
  | _ => none

def value (b : Bearer) : TokenKind → Option Stage
  | .string | .number => some (argument b)
  | .identifier =>
    match b with
    | .type => some (argument .type)
    | .decorator => some table
  | _ => none

def behindArgument (b : Bearer) : TokenKind → Option Stage
  | .comma => some (comma b)
  | .rightParen => some closeParen
  | _ => none

def next : Stage → TokenKind → Option Stage
  | outside, .model => some keyword
  | outside, .rawSql => some outside
  | keyword, .identifier => some modelName
  | modelName, .leftBrace => some openBrace
  | openBrace, .identifier => some columnName
  | columnName, .type => some (bearer .type)
  | bearer b, .leftParen => some (openParen b)
  | bearer _, kind => inColumn kind
  | openParen _, .rightParen => some closeParen
  | openParen b, kind => value b kind
  | comma b, kind => value b kind
  | argument b, kind => behindArgument b kind
  | table, .dot => some dot
  | table, kind => behindArgument .decorator kind
  | dot, .identifier => some (argument .decorator)
  | closeParen, kind => inColumn kind
  | _, _ => none

def run (stage : Stage) (xs : List Lexeme) : Option Stage :=
  xs.foldlM (fun stage x => stage.next x.1) stage

variable {stage stage' : Stage} {b : Bearer} {xs ys : List Lexeme}

theorem run_cons (x : Lexeme) : run stage (x :: xs) = (stage.next x.1).bind (run · xs) :=
  List.foldlM_cons

theorem run_append : run stage (xs ++ ys) = (run stage xs).bind (run · ys) :=
  List.foldlM_append

theorem run_cons_of_next {x : Lexeme} (h : stage.next x.1 = some stage') :
    run stage (x :: xs) = run stage' xs := by
  rw [run_cons, h]
  rfl

theorem run_append_of_run (h : run stage xs = some stage') :
    run stage (xs ++ ys) = run stage' ys := by
  rw [run_append, h]
  rfl

def InColumn (stage : Stage) : Prop := stage = closeParen ∨ ∃ b, stage = bearer b

theorem InColumn.next_decorator (h : InColumn stage) :
    stage.next .decorator = some (bearer .decorator) := by
  obtain rfl | ⟨b, rfl⟩ := h
  . rfl
  . rfl

theorem InColumn.next_identifier (h : InColumn stage) :
    stage.next .identifier = some columnName := by
  obtain rfl | ⟨b, rfl⟩ := h
  . rfl
  . rfl

theorem InColumn.next_rightBrace (h : InColumn stage) : stage.next .rightBrace = some outside := by
  obtain rfl | ⟨b, rfl⟩ := h
  . rfl
  . rfl

theorem next_bearer {kind : TokenKind} (hkind : kind ≠ .leftParen) :
    (bearer b).next kind = closeParen.next kind := by
  cases kind with
  | leftParen => exact absurd rfl hkind
  | _ => rfl

theorem next_openParen {kind : TokenKind} (hkind : kind ≠ .rightParen) :
    (openParen b).next kind = (comma b).next kind := by
  cases kind with
  | rightParen => exact absurd rfl hkind
  | _ => rfl

theorem next_table {kind : TokenKind} (hkind : kind ≠ .dot) :
    table.next kind = (argument .decorator).next kind := by
  cases kind with
  | dot => exact absurd rfl hkind
  | _ => rfl

end Stage

open Stage

section Accepts

variable {b : Bearer} {xs : List Lexeme}

theorem Bearer.Argument.run {t : Text} (h : b.Argument xs t) :
    ∃ stage, (comma b).run xs = some stage ∧ stage.next .comma = some (comma b) ∧
      stage.next .rightParen = some closeParen := by
  cases b with
  | type =>
    cases h
    all_goals exact ⟨_, rfl, rfl, rfl⟩
  | decorator =>
    cases h with
    | value h =>
      cases h
      all_goals exact ⟨_, rfl, rfl, rfl⟩
    | reference => exact ⟨_, rfl, rfl, rfl⟩

theorem Bearer.Argument.nextKind_ne {t : Text} (h : b.Argument xs t) (ys : List Lexeme) :
    nextKind (xs ++ ys) ≠ .rightParen := by
  cases b with
  | type => exact DecoratorArgument.nextKind_ne (.value h) ys
  | decorator => exact DecoratorArgument.nextKind_ne h ys

theorem Separated.run {args : List Text} (h : Separated b.Argument xs args) (right : Text) :
    (comma b).run (xs ++ [(.rightParen, right)]) = some closeParen := by
  induction h with
  | last h =>
    obtain ⟨stage, hrun, _, hclose⟩ := h.run
    rw [run_append_of_run hrun, run_cons_of_next hclose]
    rfl
  | cons comma h hs ih =>
    obtain ⟨stage, hrun, hcomma, _⟩ := h.run
    rw [List.append_assoc, run_append_of_run hrun, List.cons_append, run_cons_of_next hcomma]
    exact ih

theorem Parenthesized.run {args : Arguments} (h : Parenthesized b.Argument xs args) :
    ∃ stage, (bearer b).run xs = some stage ∧ stage.InColumn := by
  cases h with
  | absent => exact ⟨_, rfl, .inr ⟨b, rfl⟩⟩
  | empty => exact ⟨_, rfl, .inl rfl⟩
  | @values xs args left right h =>
    refine ⟨closeParen, ?_, .inl rfl⟩
    have hnext := h.nextKind_ne Bearer.Argument.nextKind_ne [(.rightParen, right)]
    have hrun := h.run right
    rw [List.cons_append, run_cons_of_next rfl]
    -- The first argument is read as behind a comma.
    cases hxs : xs ++ [(.rightParen, right)] with
    | nil => simp at hxs
    | cons x more =>
      rw [hxs] at hnext hrun
      have hkind : x.1 ≠ .rightParen := hnext
      rw [run_cons, next_openParen hkind, ← run_cons]
      exact hrun

theorem Repeated.run_decorators {ds : List Decorator} {stage : Stage}
    (h : Repeated DecoratorRule xs ds) (hstage : stage.InColumn) :
    ∃ stage', stage.run xs = some stage' ∧ stage'.InColumn := by
  induction h generalizing stage with
  | nil => exact ⟨stage, rfl, hstage⟩
  | cons h hs ih =>
    cases h with
    | mk name hargs =>
      obtain ⟨stage₁, hrun₁, hstage₁⟩ := Parenthesized.run (b := .decorator) hargs
      obtain ⟨stage₂, hrun₂, hstage₂⟩ := ih hstage₁
      refine ⟨stage₂, ?_, hstage₂⟩
      rw [List.cons_append, run_cons_of_next hstage.next_decorator, run_append_of_run hrun₁]
      exact hrun₂

theorem ColumnRule.run {c : Column} {stage : Stage} (h : ColumnRule xs c)
    (hstage : stage.next .identifier = some columnName) :
    ∃ stage', stage.run xs = some stage' ∧ stage'.InColumn := by
  cases h with
  | mk name type hargs hds =>
    obtain ⟨stage₁, hrun₁, hstage₁⟩ := Parenthesized.run (b := .type) hargs
    obtain ⟨stage₂, hrun₂, hstage₂⟩ := hds.run_decorators hstage₁
    refine ⟨stage₂, ?_, hstage₂⟩
    rw [List.cons_append, List.cons_append, run_cons_of_next hstage, run_cons_of_next rfl,
      run_append_of_run hrun₁]
    exact hrun₂

theorem Repeated.run_columns {cs : List Column} {stage : Stage} (h : Repeated ColumnRule xs cs)
    (hstage : stage.InColumn) : ∃ stage', stage.run xs = some stage' ∧ stage'.InColumn := by
  induction h generalizing stage with
  | nil => exact ⟨stage, rfl, hstage⟩
  | cons h hs ih =>
    obtain ⟨stage₁, hrun₁, hstage₁⟩ := h.run hstage.next_identifier
    obtain ⟨stage₂, hrun₂, hstage₂⟩ := ih hstage₁
    refine ⟨stage₂, ?_, hstage₂⟩
    rw [run_append_of_run hrun₁]
    exact hrun₂

theorem ModelRule.run {m : Model} (h : ModelRule xs m) : outside.run xs = some outside := by
  cases h with
  | mk keyword name left right hcs hne =>
    cases hcs with
    | nil => exact absurd rfl hne
    | cons h hs =>
      have hopen : openBrace.next .identifier = some columnName := rfl
      obtain ⟨stage₁, hrun₁, hstage₁⟩ := h.run hopen
      obtain ⟨stage₂, hrun₂, hstage₂⟩ := hs.run_columns hstage₁
      rw [List.cons_append, List.cons_append, List.cons_append, run_cons_of_next rfl,
        run_cons_of_next rfl, run_cons_of_next rfl, List.append_assoc, run_append_of_run hrun₁,
        run_append_of_run hrun₂, run_cons_of_next hstage₂.next_rightBrace]
      rfl

theorem SchemaRule.run {s : Schema} (h : SchemaRule xs s) : outside.run xs = some outside := by
  induction h with
  | nil => rfl
  | model h hs ih =>
    rw [run_append_of_run h.run]
    exact ih
  | rawSql sql hs ih =>
    rw [run_cons_of_next rfl]
    exact ih

end Accepts

def FollowsColumn (ys : List Lexeme) : Prop :=
  ∃ xs ds zs cs right more, ys = xs ++ (zs ++ (.rightBrace, right) :: more) ∧
    Repeated DecoratorRule xs ds ∧ Repeated ColumnRule zs cs ∧ Derivable more

def FollowsBearer (b : Bearer) (ys : List Lexeme) : Prop :=
  ∃ xs args zs, ys = xs ++ zs ∧ Parenthesized b.Argument xs args ∧ FollowsColumn zs

def FollowsComma (b : Bearer) (ys : List Lexeme) : Prop :=
  ∃ xs args right zs, ys = xs ++ (.rightParen, right) :: zs ∧ Separated b.Argument xs args ∧
    FollowsColumn zs

def FollowsArgument (b : Bearer) (ys : List Lexeme) : Prop :=
  (∃ comma zs, ys = (.comma, comma) :: zs ∧ FollowsComma b zs) ∨
    ∃ right zs, ys = (.rightParen, right) :: zs ∧ FollowsColumn zs

def FollowsColumnName (ys : List Lexeme) : Prop :=
  ∃ type zs, ys = (.type, type) :: zs ∧ FollowsBearer .type zs

def FollowsBrace (ys : List Lexeme) : Prop :=
  ∃ name zs, ys = (.identifier, name) :: zs ∧ FollowsColumnName zs

def Stage.Follows : Stage → List Lexeme → Prop
  | outside, ys => Derivable ys
  | keyword, ys =>
    ∃ name left zs, ys = (.identifier, name) :: (.leftBrace, left) :: zs ∧ FollowsBrace zs
  | modelName, ys => ∃ left zs, ys = (.leftBrace, left) :: zs ∧ FollowsBrace zs
  | openBrace, ys => FollowsBrace ys
  | columnName, ys => FollowsColumnName ys
  | bearer b, ys => FollowsBearer b ys
  | openParen b, ys =>
    (∃ right zs, ys = (.rightParen, right) :: zs ∧ FollowsColumn zs) ∨ FollowsComma b ys
  | comma b, ys => FollowsComma b ys
  | argument b, ys => FollowsArgument b ys
  | table, ys =>
    (∃ dot column zs, ys = (.dot, dot) :: (.identifier, column) :: zs ∧
      FollowsArgument .decorator zs) ∨ FollowsArgument .decorator ys
  | dot, ys => ∃ column zs, ys = (.identifier, column) :: zs ∧ FollowsArgument .decorator zs
  | closeParen, ys => FollowsColumn ys

section Completes

variable {b : Bearer} {stage stage' : Stage} {kind : TokenKind} {ys : List Lexeme}

theorem FollowsColumn.bearer (h : FollowsColumn ys) : FollowsBearer b ys :=
  ⟨[], _, ys, rfl, .absent, h⟩

/-- A column whose name and type have been read goes on with the next ones. -/
theorem FollowsColumnName.columns (h : FollowsColumnName ys) (name : Text) :
    ∃ xs c cs right more, (.identifier, name) :: ys = xs ++ (.rightBrace, right) :: more ∧
      Repeated ColumnRule xs (c :: cs) ∧ Derivable more := by
  obtain ⟨type, _, rfl, args, a, _, rfl, hargs, ds, d, zs, cs, right, more, rfl, hds, hcs,
    hmore⟩ := h
  refine ⟨_, _, cs, right, more, ?_, .cons (.mk name type hargs hds) hcs, hmore⟩
  simp

theorem FollowsBrace.model (h : FollowsBrace ys) (keyword name left : Text) :
    Derivable ((.model, keyword) :: (.identifier, name) :: (.leftBrace, left) :: ys) := by
  obtain ⟨first, zs, rfl, hfirst⟩ := h
  obtain ⟨xs, c, cs, right, more, hsplit, hcs, s, hs⟩ := hfirst.columns first
  have hschema := SchemaRule.model (.mk keyword name left right hcs nofun) hs
  simp only [List.cons_append, List.append_assoc, List.nil_append] at hschema
  rw [hsplit]
  exact ⟨_, hschema⟩

theorem follows_inColumn {text : Text} (hnext : inColumn kind = some stage')
    (h : stage'.Follows ys) : FollowsColumn ((kind, text) :: ys) := by
  cases kind with
  | decorator =>
    cases hnext
    obtain ⟨args, a, _, rfl, hargs, ds, d, zs, cs, right, more, rfl, hds, hcs, hmore⟩ := h
    refine ⟨_, _, zs, cs, right, more, ?_, .cons (.mk text hargs) hds, hcs, hmore⟩
    simp
  | identifier =>
    cases hnext
    obtain ⟨xs, c, cs, right, more, hsplit, hcs, hmore⟩ := FollowsColumnName.columns h text
    exact ⟨[], [], xs, _, right, more, hsplit, .nil, hcs, hmore⟩
  | rightBrace =>
    cases hnext
    exact ⟨[], [], [], [], text, ys, rfl, .nil, .nil, h⟩
  | _ => cases hnext

theorem FollowsArgument.comma {xs : List Lexeme} {t : Text} (hargument : b.Argument xs t)
    (h : FollowsArgument b ys) : FollowsComma b (xs ++ ys) := by
  obtain ⟨comma, _, rfl, more, args, right, zs, rfl, hmore, hzs⟩ | ⟨right, zs, rfl, hzs⟩ := h
  . refine ⟨_, _, right, zs, ?_, .cons comma hargument hmore, hzs⟩
    simp
  . exact ⟨xs, _, right, zs, rfl, .last hargument, hzs⟩

theorem follows_value {text : Text} (hnext : value b kind = some stage') (h : stage'.Follows ys) :
    FollowsComma b ((kind, text) :: ys) := by
  have hvalue : ∀ {xs t}, TypeArgument xs t → b.Argument xs t := by
    intro xs t h
    cases b with
    | type => exact h
    | decorator => exact .value h
  cases kind with
  | string =>
    cases hnext
    exact FollowsArgument.comma (hvalue (.string text)) h
  | number =>
    cases hnext
    exact FollowsArgument.comma (hvalue (.number text)) h
  | identifier =>
    cases b with
    | type =>
      cases hnext
      exact FollowsArgument.comma (hvalue (.identifier text)) h
    | decorator =>
      cases hnext
      obtain ⟨dot, column, zs, rfl, hzs⟩ | h := h
      . have hreference : Bearer.decorator.Argument _ _ :=
          DecoratorArgument.reference text dot column
        exact hzs.comma hreference
      . exact h.comma (hvalue (.identifier text))
  | _ => cases hnext

theorem follows_behindArgument {text : Text} (hnext : behindArgument b kind = some stage')
    (h : stage'.Follows ys) : FollowsArgument b ((kind, text) :: ys) := by
  cases kind with
  | comma =>
    cases hnext
    exact .inl ⟨text, ys, rfl, h⟩
  | rightParen =>
    cases hnext
    exact .inr ⟨text, ys, rfl, h⟩
  | _ => cases hnext

/-- What the grammar allows behind the next stage, it allows with the next lexeme before it. -/
theorem Stage.Follows.cons {text : Text} (hnext : stage.next kind = some stage')
    (h : stage'.Follows ys) : stage.Follows ((kind, text) :: ys) := by
  cases stage with
  | outside =>
    cases kind with
    | model =>
      cases hnext
      obtain ⟨name, left, zs, rfl, hzs⟩ := h
      exact hzs.model text name left
    | rawSql =>
      cases hnext
      obtain ⟨s, hs⟩ := h
      exact ⟨_, .rawSql text hs⟩
    | _ => cases hnext
  | keyword =>
    cases kind with
    | identifier =>
      cases hnext
      obtain ⟨left, zs, rfl, hzs⟩ := h
      exact ⟨text, left, zs, rfl, hzs⟩
    | _ => cases hnext
  | modelName =>
    cases kind with
    | leftBrace =>
      cases hnext
      exact ⟨text, ys, rfl, h⟩
    | _ => cases hnext
  | openBrace =>
    cases kind with
    | identifier =>
      cases hnext
      exact ⟨text, ys, rfl, h⟩
    | _ => cases hnext
  | columnName =>
    cases kind with
    | type =>
      cases hnext
      exact ⟨text, ys, rfl, h⟩
    | _ => cases hnext
  | bearer b =>
    by_cases hkind : kind = .leftParen
    . subst hkind
      cases hnext
      obtain ⟨right, zs, rfl, hzs⟩ | ⟨xs, args, right, zs, rfl, hxs, hzs⟩ := h
      . exact ⟨_, _, zs, rfl, .empty text right, hzs⟩
      . refine ⟨_, _, zs, ?_, .values text right hxs, hzs⟩
        simp
    . rw [next_bearer hkind] at hnext
      exact (follows_inColumn hnext h).bearer
  | openParen b =>
    by_cases hkind : kind = .rightParen
    . subst hkind
      cases hnext
      exact .inl ⟨text, ys, rfl, h⟩
    . rw [next_openParen hkind] at hnext
      exact .inr (follows_value hnext h)
  | comma b => exact follows_value hnext h
  | argument b => exact follows_behindArgument hnext h
  | table =>
    by_cases hkind : kind = .dot
    . subst hkind
      cases hnext
      obtain ⟨column, zs, rfl, hzs⟩ := h
      exact .inl ⟨text, column, zs, rfl, hzs⟩
    . rw [next_table hkind] at hnext
      exact .inr (follows_behindArgument hnext h)
  | dot =>
    cases kind with
    | identifier =>
      cases hnext
      exact ⟨text, ys, rfl, h⟩
    | _ => cases hnext
  | closeParen => exact follows_inColumn hnext h

theorem Stage.Follows.append {xs : List Lexeme} (hrun : stage.run xs = some stage')
    (h : stage'.Follows ys) : stage.Follows (xs ++ ys) := by
  induction xs generalizing stage with
  | nil =>
    cases hrun
    exact h
  | cons x xs ih =>
    rw [run_cons] at hrun
    obtain ⟨stage₁, hnext, hrun⟩ := Option.bind_eq_some_iff.mp hrun
    exact (ih hrun).cons hnext

/-- No stage is a dead end. -/
theorem Stage.exists_follows (stage : Stage) : ∃ ys, stage.Follows ys := by
  have hcolumn : FollowsColumn [(.rightBrace, [])] :=
    ⟨[], [], [], [], [], [], rfl, .nil, .nil, _, .nil⟩
  have hname : FollowsColumnName [(.type, []), (.rightBrace, [])] := ⟨[], _, rfl, hcolumn.bearer⟩
  have hbrace : FollowsBrace [(.identifier, []), (.type, []), (.rightBrace, [])] :=
    ⟨[], _, rfl, hname⟩
  have hargument : ∀ b, FollowsArgument b [(.rightParen, []), (.rightBrace, [])] :=
    fun _ => .inr ⟨[], _, rfl, hcolumn⟩
  cases stage with
  | outside => exact ⟨[], _, .nil⟩
  | keyword => exact ⟨_, [], [], _, rfl, hbrace⟩
  | modelName => exact ⟨_, [], _, rfl, hbrace⟩
  | openBrace => exact ⟨_, hbrace⟩
  | columnName => exact ⟨_, hname⟩
  | bearer b => exact ⟨_, hcolumn.bearer⟩
  | openParen b => exact ⟨_, .inl ⟨[], _, rfl, hcolumn⟩⟩
  | comma b =>
    have hstring : value b .string = some (.argument b) := rfl
    exact ⟨_, @follows_value _ _ _ _ [] hstring (hargument b)⟩
  | argument b => exact ⟨_, hargument b⟩
  | table => exact ⟨_, .inr (hargument .decorator)⟩
  | dot => exact ⟨_, [], _, rfl, hargument .decorator⟩
  | closeParen => exact ⟨_, hcolumn⟩

end Completes

variable {xs : List Lexeme}

/-- The automaton accepts exactly the lexemes from which the grammar derives a tree. -/
theorem derivable_iff : Derivable xs ↔ outside.run xs = some outside := by
  constructor
  . rintro ⟨s, hs⟩
    exact hs.run
  . intro h
    have hfollows : outside.Follows [] := ⟨_, .nil⟩
    have happend := hfollows.append h
    rw [List.append_nil] at happend
    exact happend

/-- The automaton goes on exactly as long as the lexemes begin some that the grammar derives. -/
theorem viable_iff : Viable xs ↔ ∃ stage, outside.run xs = some stage := by
  constructor
  . rintro ⟨ys, hys⟩
    rw [derivable_iff, run_append] at hys
    obtain ⟨stage, hrun, _⟩ := Option.bind_eq_some_iff.mp hys
    exact ⟨stage, hrun⟩
  . rintro ⟨stage, hrun⟩
    obtain ⟨ys, hys⟩ := stage.exists_follows
    exact ⟨ys, hys.append hrun⟩

end SchemaMigration.Schema.Grammar
