import SchemaMigration.Proofs.Schema.RoundTrip
import SchemaMigration.Proofs.Schema.Tokenizing

/-!
This module contains that sources can be put together line by line: the tokens of two sources with a
line feed between them are those of the first, without the end of input, and those of the second
further down, and the tree has the models and the raw SQL of both, unless a model is there twice.
-/

namespace SchemaMigration.Schema

def Position.down (lines : Nat) (p : Position) : Position := ⟨p.line + lines, p.column⟩

def Token.down (lines : Nat) (t : Token) : Token := { t with position := t.position.down lines }

def linesOf (above : Text) : Nat := 1 + above.count (byte '\n')

theorem stops_append_lineFeed {p : UInt8 → Bool} (hp : p (byte '\n') = false) {rest : Text}
    (more : Text) (h : rest.Stops p) : Text.Stops p (rest ++ byte '\n' :: more) := by
  cases rest with
  | nil => exact hp
  | cons b rest => exact h

theorem beginsFraction_of_append_lineFeed {rest more : Text}
    (h : BeginsFraction (rest ++ byte '\n' :: more)) : BeginsFraction rest := by
  obtain ⟨d, after, heq, hd⟩ := h
  match rest with
  | [] => cases heq
  | [b] =>
    cases heq
    cases hd
  | b :: c :: rest =>
    cases heq
    exact ⟨_, _, rfl, hd⟩

/-- A line feed behind the end of a source ends what the end of the source did. -/
theorem Spells.append_lineFeed {before after : Text} {kind : TokenKind} {text source : Text}
    (h : Spells before after kind text source) (more : Text) :
    Spells before (after ++ byte '\n' :: more) kind text source := by
  apply h.imp id
  . exact stops_append_lineFeed (by decide) more
  . exact stops_append_lineFeed (by decide) more
  . exact beginsFraction_of_append_lineFeed
  . exact fun _ => stops_append_lineFeed (by decide) more

theorem Gap.append_lineFeed {rest gap : Text} (h : Gap rest gap) (more : Text) :
    Gap (rest ++ byte '\n' :: more) gap := by
  induction h with
  | nil => exact .nil
  | separator hb _ ih => exact .separator hb ih
  | comment hbody hend _ ih =>
    refine .comment hbody ?_ ih
    rw [← List.append_assoc]
    exact stops_append_lineFeed (by decide) more hend

theorem Gap.append {rest gap gap' : Text} (h : Gap (gap' ++ rest) gap) (h' : Gap rest gap') :
    Gap rest (gap ++ gap') := by
  induction h with
  | nil => exact h'
  | separator hb _ ih => exact .separator hb ih
  | comment hbody hend _ ih =>
    rw [List.cons_append, List.append_assoc]
    refine .comment hbody ?_ ih
    rw [List.append_assoc]
    exact hend

/-- Behind a line feed, a line begins as at the start of a source. -/
theorem atLineStart_below {before : Text} (h : AtLineStart before) (above : Text) :
    AtLineStart (above ++ byte '\n' :: before) := by
  obtain ⟨earlier, blanks, rfl, hblanks, hlast⟩ := h
  refine ⟨above ++ byte '\n' :: earlier, blanks, by simp, hblanks, ?_⟩
  intro b hb
  rw [List.getLast?_append_cons] at hb
  cases earlier with
  | nil =>
    cases hb
    rfl
  | cons c earlier =>
    rw [List.getLast?_cons_cons] at hb
    exact hlast b hb

theorem takeWhile_append_cons {p : UInt8 → Bool} {b : UInt8} (hb : p b = false) (t u : Text) :
    (t ++ b :: u).takeWhile p = t.takeWhile p := by
  induction t with
  | nil => simp [hb]
  | cons c t ih => simp [List.takeWhile_cons, ih]

theorem placeBehind_below (above before : Text) :
    placeBehind (above ++ byte '\n' :: before) = (placeBehind before).down (linesOf above) := by
  unfold placeBehind Position.down linesOf
  rw [List.reverse_append, List.reverse_cons, List.append_assoc, List.singleton_append,
    takeWhile_append_cons (by decide), List.count_append, List.count_cons_self]
  simp only [Position.mk.injEq, and_true]
  omega

namespace Layout

theorem IsValid.below {layout : Layout} {before : Text} (h : layout.IsValid before)
    (above : Text) : layout.IsValid (above ++ byte '\n' :: before) := by
  induction layout generalizing before with
  | finish gap => exact h
  | lexeme gap kind text source rest ih =>
    obtain ⟨hgap, hspells, hrest⟩ := h
    have hbelow := ih hrest
    refine ⟨hgap, ?_, ?_⟩
    . rw [List.append_assoc, List.cons_append]
      exact hspells.imp (fun h => atLineStart_below h above) id id id fun _ => id
    . rw [List.append_assoc, List.append_assoc, List.cons_append, ← List.append_assoc]
      exact hbelow

theorem tokens_below (layout : Layout) (above before : Text) :
    layout.tokens (above ++ byte '\n' :: before) =
      (layout.tokens before).map (Token.down (linesOf above)) := by
  induction layout generalizing before with
  | finish gap => simp [tokens, Token.down, placeBehind_below]
  | lexeme gap kind text source rest ih =>
    have hrest := ih (before ++ gap ++ source)
    simp only [List.append_assoc] at hrest
    simp [tokens, Token.down, placeBehind_below, hrest]

def join : Layout → Layout → Layout
  | finish gap, below => below.widen (gap ++ [byte '\n'])
  | lexeme gap kind text source rest, below => lexeme gap kind text source (rest.join below)

variable {layout below : Layout}

theorem join_source : (layout.join below).source = layout.source ++ byte '\n' :: below.source := by
  induction layout with
  | finish gap => simp [join, widen_source, Layout.source]
  | lexeme gap kind text source rest ih => simp [join, Layout.source, ih]

theorem join_isValid {before : Text} (h : layout.IsValid before) (hbelow : below.IsValid []) :
    (layout.join below).IsValid before := by
  induction layout generalizing before with
  | finish gap =>
    have hgap : ∀ {rest gap'}, Gap rest gap' → Gap rest (gap ++ [byte '\n'] ++ gap') := by
      intro rest gap' hgap'
      rw [List.append_assoc]
      exact Gap.append (Gap.append_lineFeed h (gap' ++ rest)) (.separator (.inr rfl) hgap')
    cases below with
    | finish gap' => exact hgap hbelow
    | lexeme gap' kind text source rest =>
      obtain ⟨hgap', hspells, hrest⟩ := hbelow.below (before ++ gap)
      refine ⟨hgap hgap', ?_, ?_⟩
      . simpa using hspells
      . simpa using hrest
  | lexeme gap kind text source rest ih =>
    obtain ⟨hgap, hspells, hrest⟩ := h
    have hgap' := hgap.append_lineFeed below.source
    rw [List.append_assoc, ← join_source] at hgap'
    refine ⟨hgap', ?_, ih hrest⟩
    rw [join_source]
    exact hspells.append_lineFeed below.source

theorem tokens_ne_nil (layout : Layout) (before : Text) : layout.tokens before ≠ [] := by
  cases layout with
  | finish gap => exact nofun
  | lexeme gap kind text source rest => exact nofun

theorem join_tokens (before : Text) :
    (layout.join below).tokens before =
      (layout.tokens before).dropLast ++
        (below.tokens []).map (Token.down (linesOf (before ++ layout.source))) := by
  induction layout generalizing before with
  | finish gap =>
    have hbelow := below.tokens_below (before ++ gap) []
    rw [join, widen_tokens, ← List.append_assoc, hbelow]
    rfl
  | lexeme gap kind text source rest ih =>
    simp only [join, tokens, Layout.source]
    rw [ih, List.dropLast_cons_of_ne_nil (rest.tokens_ne_nil _)]
    simp

end Layout

/-- The tokens of a source, a line feed and another source. -/
theorem tokenize_append {a b : Text} {ts us : List Token} (ha : tokenize a = .ok ts)
    (hb : tokenize b = .ok us) :
    tokenize (a ++ byte '\n' :: b) = .ok (ts.dropLast ++ us.map (Token.down (linesOf a))) := by
  have hgo : tokenize.go a.length (Cursor.start.after []) a = .ok ts := ha
  obtain ⟨layout, rfl, hvalid, rfl⟩ := tokenize.exists_layout rfl (Nat.le_refl _) hgo
  have hgo : tokenize.go b.length (Cursor.start.after []) b = .ok us := hb
  obtain ⟨below, rfl, hbelow, rfl⟩ := tokenize.exists_layout rfl (Nat.le_refl _) hgo
  have hjoin := tokenize.go_of_layout (Layout.join_isValid hvalid hbelow) (Nat.le_refl _)
  rw [Layout.join_source, Layout.join_tokens] at hjoin
  exact hjoin

end Schema

def Schema.append (s t : Schema) : Schema := ⟨s.models ++ t.models, s.rawSql ++ t.rawSql⟩

namespace Schema

namespace Grammar

theorem ModelRule.nextKind_eq {xs : List Lexeme} {m : Model} (h : ModelRule xs m)
    (ys : List Lexeme) : nextKind (xs ++ ys) = .model := by
  cases h
  rfl

/-- A model of a schema has its own lexemes, behind those of what comes before it. -/
theorem SchemaRule.split {xs : List Lexeme} {s : Schema} (h : SchemaRule xs s)
    {before after : List Model} {m : Model} (hmodels : s.models = before ++ m :: after) :
    ∃ xs₁ xs₂ xs₃ s₁, xs = xs₁ ++ (xs₂ ++ xs₃) ∧ SchemaRule xs₁ s₁ ∧ s₁.models = before ∧
      ModelRule xs₂ m := by
  induction h generalizing before with
  | nil => simp at hmodels
  | @model xs ys n s h hs ih =>
    cases before with
    | nil =>
      obtain ⟨rfl, _⟩ := List.cons.inj hmodels
      exact ⟨[], xs, ys, _, rfl, .nil, rfl, h⟩
    | cons first before =>
      obtain ⟨rfl, hrest⟩ := List.cons.inj hmodels
      obtain ⟨xs₁, xs₂, xs₃, s₁, rfl, hrule, rfl, hmodel⟩ := ih hrest
      exact ⟨xs ++ xs₁, xs₂, xs₃, _, by simp, .model h hrule, rfl, hmodel⟩
  | rawSql sql hs ih =>
    obtain ⟨xs₁, xs₂, xs₃, s₁, rfl, hrule, hbefore, hmodel⟩ := ih hmodels
    exact ⟨_ :: xs₁, xs₂, xs₃, _, rfl, .rawSql sql hrule, hbefore, hmodel⟩

end Grammar

namespace Parser

open Grammar

variable (finish : Position) {fuel : Nat} {seen : List Text}

theorem model_of_modelRule {keyword : Token} {body : List Token} {m : Model}
    (hrule : ModelRule ((keyword :: body).map Token.lexeme) m) (hdistinct : m.Distinct)
    (rest : List Token) :
    keyword.kind = .model ∧ model finish (body ++ rest) = .ok (m, rest) := by
  have hlexemes : (keyword :: body ++ rest).map Token.lexeme =
      (keyword :: body).map Token.lexeme ++ rest.map Token.lexeme := List.map_append
  obtain ⟨hkind, rest', hparsed, hrest⟩ := model_complete finish hrule hdistinct hlexemes
  refine ⟨hkind, ?_⟩
  -- What is left has as many tokens as what stands behind the model.
  obtain ⟨used, htail, _⟩ := model_sound [] hparsed
  have hlength : rest.length = rest'.length := by
    have hcount := congrArg List.length hrest
    rw [List.length_map, List.length_map] at hcount
    exact hcount.symm
  obtain ⟨_, rfl⟩ := List.append_inj' htail hlength
  exact hparsed

theorem items_of_modelRule {keyword : Token} {body : List Token} {m : Model}
    (hrule : ModelRule ((keyword :: body).map Token.lexeme) m) (hdistinct : m.Distinct)
    (rest : List Token) :
    items finish (fuel + 1) seen (keyword :: body ++ rest) =
      if seen.contains m.name then
        .error ⟨.duplicateModel m.name, keyword.position⟩
      else
        (items finish fuel (m.name :: seen) rest).map
          fun s => { s with models := m :: s.models } := by
  obtain ⟨hkind, hparsed⟩ : keyword.kind = .model ∧ model finish (body ++ rest) = .ok (m, rest) :=
    model_of_modelRule finish hrule hdistinct rest
  have hpeek : peek finish (keyword :: body ++ rest) = keyword := rfl
  have htail : (keyword :: body ++ rest).tail = body ++ rest := rfl
  conv => lhs; unfold items
  simp only [hpeek, hkind, htail, hparsed, ok_bind]
  split
  . rfl
  . cases items finish fuel (m.name :: seen) rest with
    | error e => rfl
    | ok s => rfl

theorem items_of_rawSql {t : Token} (hkind : t.kind = .rawSql) (rest : List Token) :
    items finish (fuel + 1) seen (t :: rest) =
      (items finish fuel seen rest).map fun s => { s with rawSql := t.text :: s.rawSql } := by
  have hpeek : peek finish (t :: rest) = t := rfl
  conv => lhs; unfold items
  simp only [hpeek, hkind, List.tail_cons]
  cases items finish fuel seen rest with
  | error e => rfl
  | ok s => rfl

/-- The parser goes on behind the tokens of a schema, with the names of its models in mind. -/
theorem items_of_schemaRule {s : Schema} {used rest : List Token}
    (hrule : SchemaRule (used.map Token.lexeme) s) (hfresh : Fresh (·.name) seen s.models)
    (hdistinct : ∀ m ∈ s.models, m.Distinct) (hfuel : (used ++ rest).length ≤ fuel) :
    ∃ fuel', rest.length ≤ fuel' ∧
      items finish fuel seen (used ++ rest) =
        (items finish fuel' ((s.models.map (·.name)).reverse ++ seen) rest).map s.append := by
  generalize hxs : used.map Token.lexeme = xs at hrule
  induction hrule generalizing fuel seen used with
  | nil =>
    obtain rfl := List.map_eq_nil_iff.mp hxs
    refine ⟨fuel, hfuel, ?_⟩
    change items finish fuel seen rest = (items finish fuel seen rest).map _
    cases items finish fuel seen rest with
    | error e => rfl
    | ok s => rfl
  | @model xs ys m s hmodel hs ih =>
    obtain ⟨first, more, rfl, rfl, rfl⟩ := List.map_eq_append_iff.mp hxs
    obtain ⟨hnew, hfresh⟩ := fresh_cons.mp hfresh
    obtain ⟨hfirst, hmore⟩ := List.forall_mem_cons.mp hdistinct
    cases first with
    | nil => cases hmodel
    | cons keyword body =>
      cases fuel with
      | zero => simp at hfuel
      | succ fuel =>
        have hlength : (more ++ rest).length ≤ fuel := by
          simp only [List.length_append, List.length_cons] at hfuel ⊢
          omega
        obtain ⟨fuel', hrest, hitems⟩ := ih hfresh hmore hlength rfl
        refine ⟨fuel', hrest, ?_⟩
        have hnew : seen.contains m.name = false := by simpa using hnew
        rw [List.append_assoc, items_of_modelRule finish hmodel hfirst, hnew, hitems]
        simp only [List.map_cons, List.reverse_cons, List.append_assoc, List.singleton_append]
        cases items finish fuel' ((s.models.map (·.name)).reverse ++ m.name :: seen) rest with
        | error e => rfl
        | ok t => rfl
  | @rawSql ys s sql hs ih =>
    obtain ⟨t, more, rfl, ht, rfl⟩ := List.map_eq_cons_iff.mp hxs
    have hkind : t.kind = .rawSql := congrArg Prod.fst ht
    have htext : t.text = sql := congrArg Prod.snd ht
    cases fuel with
    | zero => simp at hfuel
    | succ fuel =>
      obtain ⟨fuel', hrest, hitems⟩ := ih hfresh hdistinct (Nat.le_of_succ_le_succ hfuel) rfl
      refine ⟨fuel', hrest, ?_⟩
      rw [List.cons_append, items_of_rawSql finish hkind, hitems, htext]
      cases items finish fuel' ((s.models.map (·.name)).reverse ++ seen) rest with
      | error e => rfl
      | ok t => rfl

end Parser

theorem map_lexeme_down (lines : Nat) (ts : List Token) :
    (ts.map (Token.down lines)).map Token.lexeme = ts.map Token.lexeme := by
  rw [List.map_map]
  rfl

theorem parse_append_of_valid {a b : Text} {body body' : List Token} {finish finish' : Position}
    (ha : tokenize a = .ok (body ++ [⟨.endOfInput, [], finish⟩]))
    (hbody : ∀ t ∈ body, Lexeme.Valid t.lexeme)
    (hb : tokenize b = .ok (body' ++ [⟨.endOfInput, [], finish'⟩]))
    (hbody' : ∀ t ∈ body', Lexeme.Valid t.lexeme) :
    ∃ place, parse (a ++ byte '\n' :: b) =
      Parser.items place (body ++ body'.map (Token.down (linesOf a))).length []
        (body ++ body'.map (Token.down (linesOf a))) := by
  have hdown : ∀ t ∈ body'.map (Token.down (linesOf a)), Lexeme.Valid t.lexeme := by
    intro t ht
    obtain ⟨u, hu, rfl⟩ := List.mem_map.mp ht
    exact hbody' u hu
  have htokens := tokenize_append ha hb
  rw [List.dropLast_concat, List.map_append, List.map_singleton, ← List.append_assoc] at htokens
  have hvalid := List.forall_mem_append.mpr ⟨hbody, hdown⟩
  unfold parse
  rw [htokens, ok_bind]
  unfold ofTokens
  rw [show Token.down (linesOf a) ⟨.endOfInput, [], finish'⟩ =
    ⟨.endOfInput, [], finish'.down (linesOf a)⟩ from rfl, bodyTokens_append hvalid]
  exact ⟨_, rfl⟩

def SharesNoModel (s t : Schema) : Prop := ∀ m ∈ t.models, m.name ∉ s.models.map (·.name)

/-- A token with which the tokens of a model begin, behind those of the models before it. -/
def Opens (tokens : List Token) (before : List Model) (m : Model) (keyword : Token) : Prop :=
  ∃ front body back s, tokens = front ++ (keyword :: body ++ back) ∧ keyword.kind = .model ∧
    Grammar.SchemaRule (front.map Token.lexeme) s ∧ s.models = before ∧
      Grammar.ModelRule ((keyword :: body).map Token.lexeme) m

theorem Opens.append {tokens : List Token} {before : List Model} {m : Model} {keyword : Token}
    (h : Opens tokens before m keyword) (more : List Token) :
    Opens (tokens ++ more) before m keyword := by
  obtain ⟨front, body, back, s, rfl, hopens⟩ := h
  refine ⟨front, body, back ++ more, s, ?_, hopens⟩
  rw [List.append_assoc, List.append_assoc]

theorem exists_first_shared {s t : Schema} (h : ¬ SharesNoModel s t) :
    ∃ before m after, t.models = before ++ m :: after ∧ m.name ∈ s.models.map (·.name) ∧
      ∀ n ∈ before, n.name ∉ s.models.map (·.name) := by
  cases hfind : t.models.find? fun m => decide (m.name ∈ s.models.map (·.name)) with
  | none =>
    refine absurd ?_ h
    intro m hm
    simpa using List.find?_eq_none.mp hfind m hm
  | some m =>
    obtain ⟨hm, before, after, hmodels, hbefore⟩ := List.find?_eq_some_iff_append.mp hfind
    refine ⟨before, m, after, hmodels, of_decide_eq_true hm, ?_⟩
    intro n hn
    simpa using hbefore n hn

theorem exists_opens {body : List Token} {t : Schema}
    (h : Grammar.SchemaRule (body.map Token.lexeme) t) {before after : List Model} {m : Model}
    (hmodels : t.models = before ++ m :: after) : ∃ keyword, Opens body before m keyword := by
  obtain ⟨xs₁, xs₂, xs₃, s₁, hlexemes, hfront, hbefore, hmodel⟩ := h.split hmodels
  obtain ⟨front, behind, rfl, rfl, hbehind⟩ := List.map_eq_append_iff.mp hlexemes
  obtain ⟨used, back, rfl, rfl, _⟩ := List.map_eq_append_iff.mp hbehind
  cases used with
  | nil => cases hmodel
  | cons keyword body =>
    have hkind : keyword.kind = .model := hmodel.nextKind_eq []
    exact ⟨keyword, front, body, back, s₁, rfl, hkind, hfront, hbefore, hmodel⟩

section Append

variable (place : Position) {fuel : Nat} {s t : Schema} {above below : List Token} {lines : Nat}

theorem items_append (habove : Grammar.SchemaRule (above.map Token.lexeme) s) (hs : s.Distinct)
    (below : List Token) :
    ∃ fuel, below.length ≤ fuel ∧
      Parser.items place (above ++ below).length [] (above ++ below) =
        (Parser.items place fuel (s.models.map (·.name)).reverse below).map s.append := by
  have hitems := Parser.items_of_schemaRule place habove (fresh_of_nodup hs.models) hs.columns
    (Nat.le_refl (above ++ below).length)
  rw [List.append_nil] at hitems
  exact hitems

theorem items_of_sharesNoModel (hbelow : Grammar.SchemaRule (below.map Token.lexeme) t)
    (ht : t.Distinct) (h : SharesNoModel s t) (hfuel : below.length ≤ fuel) :
    Parser.items place fuel (s.models.map (·.name)).reverse (below.map (Token.down lines)) =
      .ok t := by
  have hfresh : Fresh (·.name) (s.models.map (·.name)).reverse t.models := by
    refine ⟨?_, ht.models⟩
    intro m hm
    rw [List.mem_reverse]
    exact h m hm
  refine Parser.items_complete place ?_ hbelow hfresh ht.columns (map_lexeme_down lines below)
  rw [List.length_map]
  exact hfuel

theorem items_of_shared {before after : List Model} {m : Model} {keyword : Token}
    (ht : t.Distinct) (hmodels : t.models = before ++ m :: after)
    (hm : m.name ∈ s.models.map (·.name)) (hbefore : ∀ n ∈ before, n.name ∉ s.models.map (·.name))
    (hopens : Opens below before m keyword) (hfuel : below.length ≤ fuel) :
    Parser.items place fuel (s.models.map (·.name)).reverse (below.map (Token.down lines)) =
      .error ⟨.duplicateModel m.name, keyword.position.down lines⟩ := by
  obtain ⟨front, body, back, s₁, rfl, _, hfront, rfl, hmodel⟩ := hopens
  have hnames := ht.models
  have hcolumns := ht.columns
  rw [hmodels, List.map_append] at hnames
  rw [hmodels] at hcolumns
  obtain ⟨hfrontColumns, hmColumns⟩ := List.forall_mem_append.mp hcolumns
  have hfresh : Fresh (·.name) (s.models.map (·.name)).reverse s₁.models := by
    refine ⟨?_, (List.nodup_append.mp hnames).1⟩
    intro n hn
    rw [List.mem_reverse]
    exact hbefore n hn
  rw [← map_lexeme_down lines] at hfront hmodel
  rw [List.map_append, List.map_append]
  have hlength : (front.map (Token.down lines) ++ ((keyword :: body).map (Token.down lines) ++
      back.map (Token.down lines))).length ≤ fuel := by
    simpa using hfuel
  obtain ⟨fuel', hrest, hitems⟩ :=
    Parser.items_of_schemaRule place hfront hfresh hfrontColumns hlength
  rw [hitems]
  cases fuel' with
  | zero => simp at hrest
  | succ fuel' =>
    rw [List.map_cons] at hmodel ⊢
    rw [Parser.items_of_modelRule place hmodel (hmColumns m List.mem_cons_self), if_pos]
    . rfl
    . rw [List.contains_iff_mem]
      exact List.mem_append_right _ (List.mem_reverse.mpr hm)

end Append

end SchemaMigration.Schema
