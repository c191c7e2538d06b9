import SchemaMigration.Proofs.Schema.Grammar
import SchemaMigration.Schema.Parser

/-!
This module contains the correctness of the parser: it accepts exactly the tokens from which the
grammar derives a tree without repeated names, and gives this tree.
-/

namespace SchemaMigration.Schema

namespace Parser

open Grammar

variable {finish : Position} {ts rest : List Token}

theorem eq_cons_of_peek {kind : TokenKind} (h : (peek finish ts).kind = kind)
    (hkind : kind ≠ .endOfInput) : ts = peek finish ts :: ts.tail := by
  cases ts with
  | nil => exact absurd h.symm hkind
  | cons t ts => rfl

theorem lexeme_of_kind {t : Token} {kind : TokenKind} (h : t.kind = kind) :
    t.lexeme = (kind, t.text) := by
  rw [← h]
  rfl

theorem expect_ok {kind : TokenKind} {what : Expectation} {t : Token}
    (h : expect finish kind what ts = .ok (t, rest)) (hkind : kind ≠ .endOfInput) :
    ts = t :: rest ∧ t.lexeme = (kind, t.text) := by
  unfold expect at h
  split at h
  . next hpeek =>
    cases h
    exact ⟨eq_cons_of_peek hpeek hkind, lexeme_of_kind hpeek⟩
  . cases h

def Sound {α : Type} (parser : List Token → Except ParseError (α × List Token))
    (Rule : List Lexeme → α → Prop) : Prop :=
  ∀ ⦃ts rest : List Token⦄ ⦃a : α⦄, parser ts = .ok (a, rest) →
    ∃ used, ts = used ++ rest ∧ Rule (used.map Token.lexeme) a

theorem exists_typeArgument {kind : TokenKind} (h : (peek finish ts).kind = kind)
    (hkind : kind = .string ∨ kind = .number ∨ kind = .identifier) :
    ∃ used, ts = used ++ ts.tail ∧
      TypeArgument (used.map Token.lexeme) (peek finish ts).text := by
  refine ⟨[peek finish ts], ?_, ?_⟩
  . apply eq_cons_of_peek h
    rintro rfl
    simp at hkind
  . rw [List.map_singleton, lexeme_of_kind h]
    obtain rfl | rfl | rfl := hkind
    . exact .string _
    . exact .number _
    . exact .identifier _

theorem typeArgument_sound : Sound (typeArgument finish) TypeArgument := by
  intro ts rest t h
  unfold typeArgument at h
  split at h
  . next hkind =>
    cases h
    exact exists_typeArgument hkind (.inl rfl)
  . next hkind =>
    cases h
    exact exists_typeArgument hkind (.inr (.inl rfl))
  . next hkind =>
    cases h
    exact exists_typeArgument hkind (.inr (.inr rfl))
  . cases h

theorem decoratorArgument_sound : Sound (decoratorArgument finish) DecoratorArgument := by
  intro ts rest t h
  have hvalue : ∀ {kind}, (peek finish ts).kind = kind →
      (kind = .string ∨ kind = .number ∨ kind = .identifier) →
      ∃ used, ts = used ++ ts.tail ∧
        DecoratorArgument (used.map Token.lexeme) (peek finish ts).text := by
    intro kind hpeek hkind
    obtain ⟨used, hused, hrule⟩ := exists_typeArgument hpeek hkind
    exact ⟨used, hused, .value hrule⟩
  unfold decoratorArgument at h
  split at h
  . next hkind =>
    cases h
    exact hvalue hkind (.inl rfl)
  . next hkind =>
    cases h
    exact hvalue hkind (.inr (.inl rfl))
  . next hkind =>
    split at h
    . next hdot =>
      obtain ⟨⟨column, after⟩, hexpect, hok⟩ := bind_eq_ok.mp h
      cases hok
      obtain ⟨hcolumn, hlexeme⟩ := expect_ok hexpect nofun
      refine ⟨[peek finish ts, peek finish ts.tail, column], ?_, ?_⟩
      . have htable := eq_cons_of_peek hkind nofun
        have htail := eq_cons_of_peek hdot nofun
        rw [hcolumn] at htail
        rw [htail] at htable
        exact htable
      . rw [List.map_cons, List.map_cons, List.map_singleton, lexeme_of_kind hkind,
          lexeme_of_kind hdot, hlexeme]
        exact .reference _ _ _
    . cases h
      exact hvalue hkind (.inr (.inr rfl))
  . cases h

section Arguments

variable {argument : List Token → Except ParseError (Text × List Token)} {close : Expectation}
  {Argument : List Lexeme → Text → Prop}

theorem arguments_sound (hargument : Sound argument Argument) (fuel : Nat) :
    Sound (arguments finish argument close fuel) fun xs args =>
      ∃ ys right, xs = ys ++ [(.rightParen, right)] ∧ Separated Argument ys args := by
  intro ts rest args h
  induction fuel generalizing ts args with
  | zero => cases h
  | succ fuel ih =>
    unfold arguments at h
    obtain ⟨⟨arg, after⟩, harg, hok⟩ := bind_eq_ok.mp h
    obtain ⟨used, rfl, hrule⟩ := hargument harg
    dsimp only at hok
    split at hok
    . next hcomma =>
      obtain ⟨⟨more, last⟩, hmore, hok⟩ := bind_eq_ok.mp hok
      cases hok
      obtain ⟨used', htail, ys, right, hlast, hrules⟩ := ih hmore
      refine ⟨used ++ peek finish after :: used', ?_, ?_⟩
      . rw [List.append_assoc, List.cons_append, ← htail, ← eq_cons_of_peek hcomma nofun]
      . refine ⟨_, right, ?_, .cons (peek finish after).text hrule hrules⟩
        simp [hlast, lexeme_of_kind hcomma]
    . obtain ⟨⟨t, last⟩, hexpect, hok⟩ := bind_eq_ok.mp hok
      cases hok
      obtain ⟨rfl, hlexeme⟩ := expect_ok hexpect nofun
      refine ⟨used ++ [t], by simp, used.map Token.lexeme, t.text, ?_, .last hrule⟩
      simp [hlexeme]

theorem optionalArguments_sound (hargument : Sound argument Argument) :
    Sound (optionalArguments finish argument close) fun xs args? =>
      Parenthesized Argument xs (.ofOption args?) := by
  intro ts rest args? h
  unfold optionalArguments at h
  split at h
  . next hleft =>
    have hts := eq_cons_of_peek hleft nofun
    split at h
    . next hright =>
      cases h
      have htail := eq_cons_of_peek hright nofun
      refine ⟨[peek finish ts, peek finish ts.tail], ?_, ?_⟩
      . rw [htail] at hts
        exact hts
      . rw [List.map_cons, List.map_singleton, lexeme_of_kind hleft, lexeme_of_kind hright]
        exact .empty _ _
    . obtain ⟨⟨args, after⟩, hargs, hok⟩ := bind_eq_ok.mp h
      cases hok
      obtain ⟨used, htail, ys, right, hused, hrules⟩ := arguments_sound hargument _ hargs
      refine ⟨peek finish ts :: used, ?_, ?_⟩
      . rw [htail] at hts
        exact hts
      . rw [List.map_cons, lexeme_of_kind hleft, hused]
        exact .values _ right hrules
  . cases h
    exact ⟨[], rfl, .absent⟩

end Arguments

theorem decorators_sound (column : Text) (fuel : Nat) (seen : List Text) :
    Sound (decorators finish column fuel seen) fun xs ds =>
      Repeated DecoratorRule xs ds ∧ Fresh (·.name) seen ds := by
  intro ts rest ds h
  induction fuel generalizing seen ts ds with
  | zero =>
    cases h
    exact ⟨[], rfl, .nil, fresh_nil⟩
  | succ fuel ih =>
    unfold decorators at h
    split at h
    . next hkind =>
      obtain ⟨⟨args?, after⟩, hargs, hok⟩ := bind_eq_ok.mp h
      obtain ⟨used, htail, hrule⟩ := optionalArguments_sound decoratorArgument_sound hargs
      dsimp only at hok
      split at hok
      . cases hok
      . next hseen =>
        obtain ⟨⟨more, last⟩, hmore, hok⟩ := bind_eq_ok.mp hok
        cases hok
        -- The names seen so far are an argument of the loop, which carries the induction.
        obtain ⟨used', rfl, hrules, hfresh⟩ := ih _ hmore
        have hnew : (peek finish ts).text ∉ seen := by simpa using hseen
        have hts := eq_cons_of_peek hkind nofun
        refine ⟨peek finish ts :: used ++ used', ?_, ?_, fresh_cons.mpr ⟨hnew, hfresh⟩⟩
        . rw [htail] at hts
          rw [List.append_assoc]
          exact hts
        . rw [List.map_append, List.map_cons, lexeme_of_kind hkind]
          exact .cons (.mk _ hrule) hrules
    . cases h
      exact ⟨[], rfl, .nil, fresh_nil⟩

theorem column_sound : Sound (column finish) fun xs c => ColumnRule xs c ∧ c.Distinct := by
  intro ts rest c h
  unfold column at h
  obtain ⟨⟨name, ts₁⟩, hname, h⟩ := bind_eq_ok.mp h
  obtain ⟨⟨type, ts₂⟩, htype, h⟩ := bind_eq_ok.mp h
  obtain ⟨⟨typeArgs?, ts₃⟩, hargs, h⟩ := bind_eq_ok.mp h
  obtain ⟨⟨ds, ts₄⟩, hds, h⟩ := bind_eq_ok.mp h
  cases h
  obtain ⟨rfl, hnameLexeme⟩ := expect_ok hname nofun
  obtain ⟨rfl, htypeLexeme⟩ := expect_ok htype nofun
  obtain ⟨used, rfl, hrule⟩ := optionalArguments_sound typeArgument_sound hargs
  obtain ⟨used', rfl, hrules, hfresh⟩ := decorators_sound _ _ _ hds
  refine ⟨name :: type :: used ++ used', by simp, ?_, hfresh.distinct⟩
  rw [List.map_append, List.map_cons, List.map_cons, hnameLexeme, htypeLexeme]
  exact .mk _ _ hrule hrules

theorem columns_sound (fuel : Nat) :
    Sound (columns finish fuel) fun xs cs =>
      Repeated ColumnRule xs cs ∧ ∀ c ∈ cs, c.Distinct := by
  intro ts rest cs h
  induction fuel generalizing ts cs with
  | zero =>
    cases h
    exact ⟨[], rfl, .nil, nofun⟩
  | succ fuel ih =>
    unfold columns at h
    split at h
    . cases h
      exact ⟨[], rfl, .nil, nofun⟩
    . cases h
      exact ⟨[], rfl, .nil, nofun⟩
    . obtain ⟨⟨first, ts₁⟩, hfirst, h⟩ := bind_eq_ok.mp h
      obtain ⟨⟨more, ts₂⟩, hmore, h⟩ := bind_eq_ok.mp h
      cases h
      obtain ⟨used, rfl, hrule, hdistinct⟩ := column_sound hfirst
      obtain ⟨used', rfl, hrules, hall⟩ := ih hmore
      refine ⟨used ++ used', by simp, ?_, List.forall_mem_cons.mpr ⟨hdistinct, hall⟩⟩
      rw [List.map_append]
      exact .cons hrule hrules

theorem model_sound (keyword : Text) :
    Sound (model finish) fun xs m => ModelRule ((.model, keyword) :: xs) m ∧ m.Distinct := by
  intro ts rest m h
  unfold model at h
  obtain ⟨⟨name, ts₁⟩, hname, h⟩ := bind_eq_ok.mp h
  obtain ⟨⟨left, ts₂⟩, hleft, h⟩ := bind_eq_ok.mp h
  obtain ⟨⟨cs, ts₃⟩, hcs, h⟩ := bind_eq_ok.mp h
  dsimp only at h
  split at h
  . cases h
  . next hempty =>
    obtain ⟨⟨right, ts₄⟩, hright, h⟩ := bind_eq_ok.mp h
    cases h
    obtain ⟨rfl, hnameLexeme⟩ := expect_ok hname nofun
    obtain ⟨rfl, hleftLexeme⟩ := expect_ok hleft nofun
    obtain ⟨used, rfl, hrules, hdistinct⟩ := columns_sound _ hcs
    obtain ⟨rfl, hrightLexeme⟩ := expect_ok hright nofun
    refine ⟨name :: left :: used ++ [right], by simp, ?_, hdistinct⟩
    rw [List.map_append, List.map_cons, List.map_cons, List.map_singleton, hnameLexeme,
      hleftLexeme, hrightLexeme]
    exact .mk _ _ _ _ hrules (by simpa using hempty)

theorem items_sound {fuel : Nat} {seen : List Text} {s : Schema} (hfuel : ts.length ≤ fuel)
    (hts : ∀ t ∈ ts, t.kind ≠ .endOfInput) (h : items finish fuel seen ts = .ok s) :
    SchemaRule (ts.map Token.lexeme) s ∧ Fresh (·.name) seen s.models ∧
      ∀ m ∈ s.models, m.Distinct := by
  induction fuel generalizing seen ts s with
  | zero =>
    cases h
    obtain rfl : ts = [] := List.length_eq_zero_iff.mp (Nat.le_zero.mp hfuel)
    exact ⟨.nil, fresh_nil, nofun⟩
  | succ fuel ih =>
    unfold items at h
    split at h
    . next hkind =>
      cases h
      cases ts with
      | nil => exact ⟨.nil, fresh_nil, nofun⟩
      | cons t ts => exact absurd hkind (hts t (List.mem_cons_self ..))
    . next hkind =>
      have hcons := eq_cons_of_peek hkind nofun
      obtain ⟨⟨first, ts₁⟩, hfirst, h⟩ := bind_eq_ok.mp h
      obtain ⟨used, htail, hrule, hdistinct⟩ := model_sound (peek finish ts).text hfirst
      dsimp only at h
      split at h
      . cases h
      . next hseen =>
        obtain ⟨more, hmore, h⟩ := bind_eq_ok.mp h
        cases h
        rw [htail] at hcons
        rw [hcons] at hfuel hts
        have hlength : ts₁.length ≤ fuel := by
          simp only [List.length_cons, List.length_append] at hfuel
          omega
        obtain ⟨hrules, hfresh, hall⟩ := ih hlength (fun t ht => hts t (by simp [ht])) hmore
        have hnew : first.name ∉ seen := by simpa using hseen
        refine ⟨?_, fresh_cons.mpr ⟨hnew, hfresh⟩, List.forall_mem_cons.mpr ⟨hdistinct, hall⟩⟩
        rw [hcons, List.map_cons, List.map_append, lexeme_of_kind hkind]
        exact .model hrule hrules
    . next hkind =>
      have hcons := eq_cons_of_peek hkind nofun
      obtain ⟨more, hmore, h⟩ := bind_eq_ok.mp h
      cases h
      have hlength : ts.tail.length ≤ fuel := by
        rw [List.length_tail]
        omega
      obtain ⟨hrules, hfresh, hall⟩ :=
        ih hlength (fun t ht => hts t (List.mem_of_mem_tail ht)) hmore
      refine ⟨?_, hfresh, hall⟩
      rw [hcons, List.map_cons, lexeme_of_kind hkind]
      exact .rawSql _ hrules
    . cases h

theorem peek_kind {xs : List Lexeme} (h : ts.map Token.lexeme = xs) :
    (peek finish ts).kind = nextKind xs := by
  subst h
  cases ts with
  | nil => rfl
  | cons t ts => rfl

theorem peek_text {x : Lexeme} {xs : List Lexeme} (h : ts.map Token.lexeme = x :: xs) :
    (peek finish ts).text = x.2 := by
  cases ts with
  | nil => cases h
  | cons t ts =>
    cases h
    rfl

theorem map_lexeme_tail {x : Lexeme} {xs : List Lexeme} (h : ts.map Token.lexeme = x :: xs) :
    ts.tail.map Token.lexeme = xs := by
  rw [List.map_tail, h]
  rfl

theorem expect_of_lexemes {x : Lexeme} {xs : List Lexeme} (what : Expectation)
    (h : ts.map Token.lexeme = x :: xs) :
    expect finish x.1 what ts = .ok (peek finish ts, ts.tail) := by
  have hkind : (peek finish ts).kind = x.1 := peek_kind h
  unfold expect
  rw [if_pos hkind]

/-- What a rule derives is read, if a token stands behind it that does not go on with it. -/
def Complete {α : Type} (parser : List Token → Except ParseError (α × List Token))
    (Rule : List Lexeme → α → Prop) (Follows : TokenKind → Prop) : Prop :=
  ∀ ⦃ts : List Token⦄ ⦃xs ys : List Lexeme⦄ ⦃a : α⦄, Rule xs a → Follows (nextKind ys) →
    ts.map Token.lexeme = xs ++ ys →
      ∃ rest, parser ts = .ok (a, rest) ∧ rest.map Token.lexeme = ys

variable (finish)

theorem typeArgument_complete : Complete (typeArgument finish) TypeArgument (· ≠ .dot) := by
  intro ts xs ys t hrule _ h
  refine ⟨ts.tail, ?_, ?_⟩
  . unfold typeArgument
    cases hrule
    all_goals
      rw [peek_kind h, peek_text h]
      rfl
  . cases hrule
    all_goals exact map_lexeme_tail h

theorem decoratorArgument_complete :
    Complete (decoratorArgument finish) DecoratorArgument (· ≠ .dot) := by
  intro ts xs ys t hrule hfollows h
  cases hrule with
  | value hrule =>
    have htail : ts.tail.map Token.lexeme = ys := by
      cases hrule
      all_goals exact map_lexeme_tail h
    refine ⟨ts.tail, ?_, htail⟩
    unfold decoratorArgument
    cases hrule with
    | string =>
      rw [peek_kind h, peek_text h]
      rfl
    | number =>
      rw [peek_kind h, peek_text h]
      rfl
    | identifier =>
      rw [peek_kind h, peek_text h, peek_kind htail]
      exact if_neg hfollows
  | reference table dot column =>
    have hdot := map_lexeme_tail h
    have hcolumn := map_lexeme_tail hdot
    refine ⟨ts.tail.tail.tail, ?_, map_lexeme_tail hcolumn⟩
    have hkind : (peek finish ts).kind = .identifier := peek_kind h
    have hkindDot : (peek finish ts.tail).kind = .dot := peek_kind hdot
    unfold decoratorArgument
    rw [hkind, peek_text h]
    simp only [hkindDot, ↓reduceIte]
    rw [expect_of_lexemes _ hcolumn, ok_bind]
    dsimp only
    rw [peek_text hcolumn]
    rfl

section Arguments

variable {argument : List Token → Except ParseError (Text × List Token)} {close : Expectation}
  {Argument : List Lexeme → Text → Prop}

theorem arguments_complete (hargument : Complete argument Argument (· ≠ .dot)) {fuel : Nat}
    {args : List Text} (hfuel : args.length ≤ fuel) {xs ys : List Lexeme}
    (hrule : Separated Argument xs args) {right : Text}
    (h : ts.map Token.lexeme = xs ++ (.rightParen, right) :: ys) :
    ∃ rest, arguments finish argument close fuel ts = .ok (args, rest) ∧
      rest.map Token.lexeme = ys := by
  induction hrule generalizing fuel ts with
  | last hrule =>
    cases fuel with
    | zero => simp at hfuel
    | succ fuel =>
      obtain ⟨after, harg, hafter⟩ := hargument hrule (by simp [nextKind]) h
      have hkind : (peek finish after).kind = .rightParen := peek_kind hafter
      refine ⟨after.tail, ?_, map_lexeme_tail hafter⟩
      unfold arguments
      rw [harg, ok_bind]
      dsimp only
      rw [hkind, if_neg (by decide), expect_of_lexemes close hafter]
      rfl
  | cons comma hrule hrules ih =>
    cases fuel with
    | zero => simp at hfuel
    | succ fuel =>
      rw [List.append_assoc] at h
      obtain ⟨after, harg, hafter⟩ := hargument hrule (by simp [nextKind]) h
      have hkind : (peek finish after).kind = .comma := peek_kind hafter
      obtain ⟨rest, hmore, hrest⟩ := ih (by simpa using hfuel) (map_lexeme_tail hafter)
      refine ⟨rest, ?_, hrest⟩
      unfold arguments
      rw [harg, ok_bind]
      dsimp only
      rw [if_pos hkind, hmore]
      rfl

theorem optionalArguments_complete (hargument : Complete argument Argument (· ≠ .dot))
    (hstart : ∀ {xs t}, Argument xs t → ∀ ys, nextKind (xs ++ ys) ≠ .rightParen) :
    Complete (optionalArguments finish argument close)
      (fun xs args? => Parenthesized Argument xs (.ofOption args?)) (· ≠ .leftParen) := by
  intro ts xs ys args? hrule hfollows h
  unfold optionalArguments
  cases args? with
  | none =>
    cases hrule with
    | absent =>
      have hkind : (peek finish ts).kind = nextKind ys := peek_kind h
      rw [if_neg (by rw [hkind]; exact hfollows)]
      exact ⟨ts, rfl, h⟩
  | some args =>
    cases hrule with
    | empty left right =>
      have htail := map_lexeme_tail h
      have hleft : (peek finish ts).kind = .leftParen := peek_kind h
      have hright : (peek finish ts.tail).kind = .rightParen := peek_kind htail
      rw [if_pos hleft, if_pos hright]
      exact ⟨ts.tail.tail, rfl, map_lexeme_tail htail⟩
    | values left right hrules =>
      rw [List.append_assoc, List.cons_append] at h
      have htail := map_lexeme_tail h
      have hleft : (peek finish ts).kind = .leftParen := peek_kind h
      have hright : (peek finish ts.tail).kind ≠ .rightParen := by
        rw [peek_kind htail]
        exact hrules.nextKind_ne hstart _
      rw [if_pos hleft, if_neg hright]
      have hlength : args.length ≤ ts.length + 1 := by
        have hvalues := hrules.length_le hstart
        have hcount := congrArg List.length h
        simp only [List.length_map, List.length_cons, List.length_append] at hcount
        omega
      obtain ⟨rest, hargs, hrest⟩ := arguments_complete finish hargument hlength hrules htail
      exact ⟨rest, by rw [hargs]; rfl, hrest⟩

end Arguments

theorem decorators_complete (column : Text) {fuel : Nat} {seen : List Text} {ds : List Decorator}
    {xs ys : List Lexeme} (hfuel : ds.length ≤ fuel) (hrules : Repeated DecoratorRule xs ds)
    (hfresh : Fresh (·.name) seen ds)
    (hfollows : nextKind ys ≠ .leftParen ∧ nextKind ys ≠ .decorator)
    (h : ts.map Token.lexeme = xs ++ ys) :
    ∃ rest, decorators finish column fuel seen ts = .ok (ds, rest) ∧
      rest.map Token.lexeme = ys := by
  induction hrules generalizing fuel seen ts with
  | nil =>
    refine ⟨ts, ?_, h⟩
    cases fuel with
    | zero => rfl
    | succ fuel =>
      unfold decorators
      rw [if_neg (by rw [peek_kind h]; exact hfollows.2)]
  | @cons xs₁ xs₂ d ds hrule hrules ih =>
    cases fuel with
    | zero => simp at hfuel
    | succ fuel =>
      cases hrule with
      | @mk xs₁ args name hargs =>
        rw [List.append_assoc, List.cons_append] at h
        have hkind : (peek finish ts).kind = .decorator := peek_kind h
        have hnext : nextKind (xs₂ ++ ys) ≠ .leftParen := by
          rcases hrules.nextKind_eq DecoratorRule.nextKind_eq ys with hnext | hnext
          . simp [hnext]
          . rw [hnext]
            exact hfollows.1
        have hoption := Arguments.ofOption_toOption hargs.wellFormed
        obtain ⟨after, hparsed, hafter⟩ := optionalArguments_complete finish
          (decoratorArgument_complete finish) DecoratorArgument.nextKind_ne (hoption ▸ hargs) hnext
          (map_lexeme_tail h)
        obtain ⟨hnew, hfresh⟩ := fresh_cons.mp hfresh
        obtain ⟨rest, hmore, hrest⟩ := ih (by simpa using hfuel) hfresh hafter
        refine ⟨rest, ?_, hrest⟩
        have hnew : seen.contains name = false := by simpa using hnew
        unfold decorators
        rw [if_pos hkind, hparsed, ok_bind, peek_text h]
        simp only [hnew, hmore, ok_bind, hoption]
        rfl

theorem column_complete :
    Complete (column finish) (fun xs c => ColumnRule xs c ∧ c.Distinct)
      (fun kind => kind ≠ .leftParen ∧ kind ≠ .decorator) := by
  intro ts xs ys c hrule hfollows h
  obtain ⟨hrule, hdistinct⟩ := hrule
  cases hrule with
  | @mk xs₁ xs₂ args ds name type hargs hds =>
    rw [List.append_assoc, List.cons_append, List.cons_append] at h
    have htype := map_lexeme_tail h
    have hnext : nextKind (xs₂ ++ ys) ≠ .leftParen := by
      rcases hds.nextKind_eq DecoratorRule.nextKind_eq ys with hnext | hnext
      . simp [hnext]
      . rw [hnext]
        exact hfollows.1
    have hoption := Arguments.ofOption_toOption hargs.wellFormed
    obtain ⟨after, hparsed, hafter⟩ := optionalArguments_complete finish
      (typeArgument_complete finish) (fun h => DecoratorArgument.nextKind_ne (.value h))
      (hoption ▸ hargs) hnext (map_lexeme_tail htype)
    have hfuel : ds.length ≤ after.length := by
      have hcount := congrArg List.length hafter
      have hlength := hds.length_le DecoratorRule.nextKind_eq nofun
      rw [List.length_map, List.length_append] at hcount
      omega
    obtain ⟨rest, hparsedDs, hrest⟩ := decorators_complete finish name hfuel hds
      (fresh_of_nodup hdistinct) hfollows hafter
    refine ⟨rest, ?_, hrest⟩
    unfold column
    rw [expect_of_lexemes _ h, ok_bind]
    dsimp only
    rw [expect_of_lexemes _ htype, ok_bind]
    dsimp only
    rw [hparsed, ok_bind]
    dsimp only
    rw [peek_text h, hparsedDs, ok_bind]
    dsimp only
    rw [peek_text htype, hoption]
    rfl

theorem columns_complete {fuel : Nat} {cs : List Column} {xs ys : List Lexeme}
    (hfuel : cs.length ≤ fuel) (hrules : Repeated ColumnRule xs cs)
    (hdistinct : ∀ c ∈ cs, c.Distinct) (hfollows : nextKind ys = .rightBrace)
    (h : ts.map Token.lexeme = xs ++ ys) :
    ∃ rest, columns finish fuel ts = .ok (cs, rest) ∧ rest.map Token.lexeme = ys := by
  induction hrules generalizing fuel ts with
  | nil =>
    refine ⟨ts, ?_, h⟩
    cases fuel with
    | zero => rfl
    | succ fuel =>
      have hkind : (peek finish ts).kind = .rightBrace := (peek_kind h).trans hfollows
      unfold columns
      rw [hkind]
  | @cons xs₁ xs₂ c cs hrule hrules ih =>
    cases fuel with
    | zero => simp at hfuel
    | succ fuel =>
      rw [List.append_assoc] at h
      have hkind : (peek finish ts).kind = .identifier :=
        (peek_kind h).trans (hrule.nextKind_eq _)
      -- Behind a column there is the name of the next one or the end of the model.
      have hnext : nextKind (xs₂ ++ ys) ≠ .leftParen ∧ nextKind (xs₂ ++ ys) ≠ .decorator := by
        rcases hrules.nextKind_eq ColumnRule.nextKind_eq ys with hnext | hnext
        . simp [hnext]
        . simp [hnext, hfollows]
      obtain ⟨hfirst, hmore⟩ := List.forall_mem_cons.mp hdistinct
      obtain ⟨after, hparsed, hafter⟩ := column_complete finish ⟨hrule, hfirst⟩ hnext h
      obtain ⟨rest, hparsedMore, hrest⟩ := ih (by simpa using hfuel) hmore hafter
      refine ⟨rest, ?_, hrest⟩
      unfold columns
      simp only [hkind, hparsed, ok_bind, hparsedMore]
      rfl

theorem model_complete {m : Model} {xs ys : List Lexeme} (hrule : ModelRule xs m)
    (hdistinct : m.Distinct) (h : ts.map Token.lexeme = xs ++ ys) :
    (peek finish ts).kind = .model ∧
      ∃ rest, model finish ts.tail = .ok (m, rest) ∧ rest.map Token.lexeme = ys := by
  cases hrule with
  | @mk xs cs keyword name left right hcs hne =>
    rw [List.append_assoc, List.cons_append, List.cons_append, List.cons_append] at h
    have hname := map_lexeme_tail h
    have hleft := map_lexeme_tail hname
    have hcolumns := map_lexeme_tail hleft
    have hfuel : cs.length ≤ ts.tail.tail.tail.length := by
      have hcount := congrArg List.length hcolumns
      have hlength := hcs.length_le ColumnRule.nextKind_eq nofun
      rw [List.length_map, List.length_append] at hcount
      omega
    obtain ⟨after, hparsed, hafter⟩ := columns_complete finish hfuel hcs hdistinct rfl hcolumns
    refine ⟨peek_kind h, after.tail, ?_, map_lexeme_tail hafter⟩
    have hnonempty : cs.isEmpty = false := by
      simpa using hne
    unfold model
    rw [expect_of_lexemes _ hname, ok_bind]
    dsimp only
    rw [expect_of_lexemes _ hleft, ok_bind]
    dsimp only
    rw [hparsed, ok_bind]
    simp only [hnonempty, Bool.false_eq_true, ↓reduceIte]
    rw [expect_of_lexemes _ hafter, ok_bind, peek_text hname]
    rfl

theorem items_complete {fuel : Nat} {seen : List Text} {s : Schema} {xs : List Lexeme}
    (hfuel : xs.length ≤ fuel) (hrule : SchemaRule xs s) (hfresh : Fresh (·.name) seen s.models)
    (hdistinct : ∀ m ∈ s.models, m.Distinct) (h : ts.map Token.lexeme = xs) :
    items finish fuel seen ts = .ok s := by
  induction hrule generalizing fuel seen ts with
  | nil =>
    cases fuel with
    | zero => rfl
    | succ fuel =>
      have hkind : (peek finish ts).kind = .endOfInput := peek_kind h
      unfold items
      rw [hkind]
  | @model xs ys m s hrule hrules ih =>
    obtain ⟨hfirst, hmore⟩ := List.forall_mem_cons.mp hdistinct
    obtain ⟨hnew, hfresh⟩ := fresh_cons.mp hfresh
    obtain ⟨hkind, rest, hparsed, hrest⟩ := model_complete finish hrule hfirst h
    have hlength : ys.length < fuel := by
      cases hrule
      simp only [List.length_append, List.length_cons] at hfuel
      omega
    cases fuel with
    | zero => simp at hlength
    | succ fuel =>
      have hparsedMore := ih (Nat.le_of_lt_succ hlength) hfresh hmore hrest
      have hnew : seen.contains m.name = false := by simpa using hnew
      unfold items
      simp only [hkind, hparsed, ok_bind, hnew, Bool.false_eq_true, ↓reduceIte, hparsedMore]
      rfl
  | rawSql sql hrules ih =>
    cases fuel with
    | zero => simp at hfuel
    | succ fuel =>
      have hkind : (peek finish ts).kind = .rawSql := peek_kind h
      have hparsedMore := ih (by simpa using hfuel) hfresh hdistinct (map_lexeme_tail h)
      unfold items
      simp only [hkind, hparsedMore, ok_bind, peek_text h]
      rfl

end Parser

theorem mem_bodyTokens {ts : List Token} {t : Token} (h : t ∈ bodyTokens ts) :
    t ∈ ts ∧ t.kind ≠ .endOfInput := by
  unfold bodyTokens at h
  refine ⟨(List.takeWhile_sublist _).subset h, ?_⟩
  simpa using List.mem_takeWhile_imp h

theorem ofTokens_eq_ok_iff (ts : List Token) (s : Schema) :
    ofTokens ts = .ok s ↔
      Grammar.SchemaRule ((bodyTokens ts).map Token.lexeme) s ∧ s.Distinct := by
  constructor
  . intro h
    obtain ⟨hrule, hfresh, hdistinct⟩ :=
      Parser.items_sound (Nat.le_refl _) (fun t ht => (mem_bodyTokens ht).2) h
    exact ⟨hrule, hfresh.distinct, hdistinct⟩
  . rintro ⟨hrule, hdistinct⟩
    apply Parser.items_complete _ _ hrule (fresh_of_nodup hdistinct.models) hdistinct.columns rfl
    rw [List.length_map]

end SchemaMigration.Schema
