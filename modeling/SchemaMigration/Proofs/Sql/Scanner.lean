import SchemaMigration.Sql.Quote

/-!
This module contains a scanner for SQL statements that tells what stands in quotes from what does
not. Inside quotes the quote byte is doubled, and no other byte has a meaning of its own.
-/

namespace SchemaMigration.Sql

inductive Quoted where
  | identifier | literal
  deriving DecidableEq, Repr

/-- A part of a statement: a quoted text without its quotes, or a byte outside of quotes. -/
inductive Token where
  | quoted (kind : Quoted) (content : Text)
  | bare (b : UInt8)
  deriving DecidableEq, Repr

namespace Token

def contents (kind : Quoted) (tokens : List Token) : List Text :=
  tokens.filterMap fun
    | quoted k content => if k = kind then some content else none
    | bare _ => none

def outside (tokens : List Token) : Text :=
  tokens.filterMap fun
    | quoted _ _ => none
    | bare b => some b

@[simp]
theorem contents_append (kind : Quoted) (tokens tokens' : List Token) :
    contents kind (tokens ++ tokens') = contents kind tokens ++ contents kind tokens' :=
  List.filterMap_append

@[simp]
theorem contents_bare (kind : Quoted) (t : Text) : contents kind (t.map bare) = [] := by
  simp [contents]

@[simp]
theorem outside_append (tokens tokens' : List Token) :
    outside (tokens ++ tokens') = outside tokens ++ outside tokens' :=
  List.filterMap_append

@[simp]
theorem outside_bare (t : Text) : outside (t.map bare) = t := by
  rw [outside, List.filterMap_map]
  exact List.filterMap_some

end Token

namespace Scanner

def quoteByte (quote : UInt8) : Quoted → UInt8
  | .identifier => quote
  | .literal => byte '\''

def opens? (quote b : UInt8) : Option Quoted :=
  if b == quote then some .identifier
  else if b == byte '\'' then some .literal
  else none

/-- Where a scanner is. Behind a quote byte it cannot tell yet whether that byte is doubled. -/
inductive Mode where
  | outside
  | inside (kind : Quoted) (content : Text)
  | closing (kind : Quoted) (content : Text)
  deriving DecidableEq, Repr

structure State where
  tokens : List Token
  mode : Mode
  deriving DecidableEq, Repr

def readBare (quote : UInt8) (tokens : List Token) (b : UInt8) : State :=
  match opens? quote b with
  | some kind => ⟨tokens, .inside kind []⟩
  | none => ⟨tokens ++ [.bare b], .outside⟩

def step (quote : UInt8) (s : State) (b : UInt8) : State :=
  match s.mode with
  | .outside => readBare quote s.tokens b
  | .inside kind content =>
    if b == quoteByte quote kind then { s with mode := .closing kind content }
    else { s with mode := .inside kind (content ++ [b]) }
  | .closing kind content =>
    if b == quoteByte quote kind then { s with mode := .inside kind (content ++ [b]) }
    else readBare quote (s.tokens ++ [.quoted kind content]) b

/-- Takes a quote byte for the closing one, if there may be one. -/
def State.close (s : State) : State :=
  match s.mode with
  | .closing kind content => ⟨s.tokens ++ [.quoted kind content], .outside⟩
  | _ => s

/-- The parts of a statement, unless it ends inside quotes. -/
def scan (quote : UInt8) (statement : Text) : Option (List Token) :=
  let s := (statement.foldl (step quote) ⟨[], .outside⟩).close
  if s.mode = .outside then some s.tokens else none

/-- A text consists of some parts, wherever outside of quotes it stands. -/
def Reads (quote : UInt8) (t : Text) (tokens : List Token) : Prop :=
  ∀ before, (t.foldl (step quote) ⟨before, .outside⟩).close = ⟨before ++ tokens, .outside⟩

variable {quote : UInt8} {s t : Text} {tokens tokens' : List Token}

theorem scan_eq_some (h : Reads quote t tokens) : scan quote t = some tokens := by
  unfold scan
  rw [h]
  rfl

theorem quoteByte_ne {kind : Quoted} {b : UInt8} (h : opens? quote b = none) :
    (b == quoteByte quote kind) = false := by
  unfold opens? at h
  split at h
  . contradiction
  . next hquote =>
    split at h
    . contradiction
    . next hliteral =>
      cases kind with
      | identifier => exact Bool.eq_false_iff.mpr hquote
      | literal => exact Bool.eq_false_iff.mpr hliteral

/-- A byte that is no quote byte cannot tell whether quotes before it have been closed already. -/
theorem step_close {b : UInt8} (h : opens? quote b = none) (s : State) :
    step quote s.close b = step quote s b := by
  obtain ⟨tokens, mode⟩ := s
  cases mode with
  | outside => rfl
  | inside kind content => rfl
  | closing kind content =>
    simp only [State.close, step, quoteByte_ne h]
    rfl

theorem reads_nil : Reads quote [] [] := by
  intro before
  simp [State.close]

theorem Reads.nil_inj (h : Reads quote [] tokens) : tokens = [] := by
  have := h []
  simp [State.close] at this
  exact this

theorem foldl_bare (h : ∀ b ∈ t, opens? quote b = none) (before : List Token) :
    t.foldl (step quote) ⟨before, .outside⟩ = ⟨before ++ t.map .bare, .outside⟩ := by
  induction t generalizing before with
  | nil => simp
  | cons b t ih =>
    have hb : step quote ⟨before, .outside⟩ b = ⟨before ++ [.bare b], .outside⟩ := by
      simp only [step, readBare, h b (List.mem_cons_self ..)]
    rw [List.foldl_cons, hb, ih fun c hc => h c (List.mem_cons_of_mem _ hc)]
    simp

theorem Reads.bare_append (hs : ∀ b ∈ s, opens? quote b = none) (ht : Reads quote t tokens) :
    Reads quote (s ++ t) (s.map .bare ++ tokens) := by
  intro before
  rw [List.foldl_append, foldl_bare hs, ht, List.append_assoc]

theorem Reads.append (hs : Reads quote s tokens) (ht : Reads quote t tokens')
    (hstart : ∀ b ∈ t.head?, opens? quote b = none) : Reads quote (s ++ t) (tokens ++ tokens') := by
  intro before
  rw [List.foldl_append]
  cases t with
  | nil =>
    rw [ht.nil_inj, List.append_nil]
    exact hs before
  | cons b t =>
    -- `s` may end with a quote byte, which a quote byte at the front of `t` would double.
    rw [List.foldl_cons, ← step_close (hstart b rfl), hs, ← List.foldl_cons, ht, List.append_assoc]

theorem foldl_doubled (kind : Quoted) (content : Text) (before : List Token) :
    (t.flatMap fun b => if b == quoteByte quote kind then [b, b] else [b]).foldl (step quote)
      ⟨before, .inside kind content⟩ = ⟨before, .inside kind (content ++ t)⟩ := by
  induction t generalizing content with
  | nil => simp
  | cons b t ih =>
    have hb : (if b == quoteByte quote kind then [b, b] else [b]).foldl (step quote)
        ⟨before, .inside kind content⟩ = ⟨before, .inside kind (content ++ [b])⟩ := by
      split
      . next hb => simp [step, hb]
      . next hb => simp [step, hb]
    rw [List.flatMap_cons, List.foldl_append, hb, ih, List.append_assoc]
    rfl

theorem reads_enclose (kind : Quoted) (h : opens? quote (quoteByte quote kind) = some kind)
    (t : Text) : Reads quote (enclose (quoteByte quote kind) t) [.quoted kind t] := by
  intro before
  unfold enclose
  rw [List.cons_append, List.foldl_cons, List.foldl_append]
  have hopen : step quote ⟨before, .outside⟩ (quoteByte quote kind) =
      ⟨before, .inside kind []⟩ := by
    simp only [step, readBare, h]
  rw [hopen, foldl_doubled]
  simp [step, State.close]

end Scanner

end SchemaMigration.Sql
