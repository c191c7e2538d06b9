import Mathlib.Data.List.Induction
import SchemaMigration.Proofs.Schema.Lexing

/-!
This module contains the correctness of the lexer: it accepts exactly the sources that can be laid
out as gaps and lexemes, there is one such layout, and the tokens are those of its lexemes, each at
its place.
-/

namespace SchemaMigration.Schema

theorem atLineStart_concat (before : Text) (b : UInt8) :
    AtLineStart (before ++ [b]) ↔ b = byte '\n' ∨ (AtLineStart before ∧ IsBlank b) := by
  constructor
  . rintro ⟨earlier, blanks, hsplit, hblanks, hlast⟩
    cases List.eq_nil_or_concat blanks with
    | inl h =>
      rw [h, List.append_nil] at hsplit
      apply Or.inl
      apply hlast
      rw [← hsplit]
      simp
    | inr h =>
      obtain ⟨more, c, rfl⟩ := h
      rw [List.concat_eq_append, ← List.append_assoc] at hsplit
      rw [List.concat_eq_append] at hblanks
      obtain ⟨rfl, hb⟩ := List.append_inj' hsplit rfl
      cases hb
      refine .inr ⟨⟨earlier, more, rfl, ?_, hlast⟩, ?_⟩
      . intro c hc
        exact hblanks c (List.mem_append_left _ hc)
      . exact hblanks b (List.mem_append_right _ (List.mem_singleton_self b))
  . intro h
    cases h with
    | inl h => exact ⟨before ++ [b], [], by simp, nofun, by simp [h]⟩
    | inr h =>
      obtain ⟨⟨earlier, blanks, rfl, hblanks, hlast⟩, hb⟩ := h
      refine ⟨earlier, blanks ++ [b], by simp, ?_, hlast⟩
      intro c hc
      cases List.mem_append.mp hc with
      | inl hc => exact hblanks c hc
      | inr hc => exact List.mem_singleton.mp hc ▸ hb

theorem placeBehind_concat (before : Text) (b : UInt8) :
    placeBehind (before ++ [b]) = (placeBehind before).advance b := by
  unfold placeBehind Position.advance
  rw [List.count_append, List.reverse_append]
  split
  . next hb =>
    rw [beq_iff_eq.mp hb]
    simp
    omega
  . next hb =>
    have hne : b ≠ byte '\n' := by simpa using hb
    simp [hne]
    omega

namespace Cursor

theorem isBlank_iff (b : UInt8) : isBlank b = true ↔ IsBlank b := by
  simp [isBlank, IsBlank, or_assoc]

theorem after_concat (c : Cursor) (t : Text) (b : UInt8) :
    c.after (t ++ [b]) = (c.after t).advance b := by
  simp [after]

theorem after_append (c : Cursor) (t u : Text) : c.after (t ++ u) = (c.after t).after u := by
  simp [after]

theorem start_after_position (before : Text) :
    (start.after before).position = placeBehind before := by
  induction before using List.reverseRecOn with
  | nil => rfl
  | append_singleton before b ih =>
    rw [after_concat, placeBehind_concat, ← ih]
    rfl

theorem start_after_lineStart (before : Text) :
    (start.after before).lineStart = true ↔ AtLineStart before := by
  induction before using List.reverseRecOn with
  | nil => exact iff_of_true rfl atLineStart_nil
  | append_singleton before b ih =>
    rw [after_concat, atLineStart_concat, ← ih, ← isBlank_iff]
    simp [advance]

end Cursor

/-- The lexer reads a piece that fits, gives its token, and goes on behind it. -/
theorem tokenize.go_of_fits {fuel : Nat} {before source rest : Text}
    {token? : Option (TokenKind × Text)} (hfuel : (source ++ rest).length ≤ fuel)
    (h : Piece.Fits before ⟨token?, source, rest⟩) :
    ∃ fuel', rest.length ≤ fuel' ∧
      tokenize.go fuel (Cursor.start.after before) (source ++ rest) =
        (tokenize.go fuel' (Cursor.start.after (before ++ source)) rest).map
          (Piece.tokens ⟨token?, source, rest⟩ (placeBehind before) ++ ·) := by
  obtain ⟨b, tail, rfl⟩ := List.exists_cons_of_ne_nil h.source_ne_nil
  have hfirst : Piece.first (Cursor.start.after before).lineStart b (tail ++ rest) =
      .ok ⟨token?, b :: tail, rest⟩ :=
    Piece.first_of_fits (Cursor.start_after_lineStart before).mpr h rfl
  rw [Cursor.after_append, ← Cursor.start_after_position]
  exact tokenize.go_of_first hfuel hfirst

theorem tokenize.go_of_fits_gap {fuel : Nat} {before source rest : Text}
    (hfuel : (source ++ rest).length ≤ fuel) (h : Piece.Fits before (.gap source rest)) :
    ∃ fuel', rest.length ≤ fuel' ∧
      tokenize.go fuel (Cursor.start.after before) (source ++ rest) =
        tokenize.go fuel' (Cursor.start.after (before ++ source)) rest := by
  obtain ⟨fuel', hrest, hgo⟩ := tokenize.go_of_fits hfuel h
  refine ⟨fuel', hrest, hgo.trans ?_⟩
  cases tokenize.go fuel' (Cursor.start.after (before ++ source)) rest with
  | error e => rfl
  | ok tokens => rfl

theorem tokenize.go_of_gap {rest gap : Text} (h : Gap rest gap) {fuel : Nat} (before : Text)
    (hfuel : (gap ++ rest).length ≤ fuel) :
    ∃ fuel', rest.length ≤ fuel' ∧
      tokenize.go fuel (Cursor.start.after before) (gap ++ rest) =
        tokenize.go fuel' (Cursor.start.after (before ++ gap)) rest := by
  induction h generalizing fuel before with
  | nil => exact ⟨fuel, hfuel, by simp⟩
  | @separator b gap hb h ih =>
    rw [← List.singleton_append, List.append_assoc] at hfuel ⊢
    obtain ⟨fuel₁, hfuel₁, hgo₁⟩ := tokenize.go_of_fits_gap hfuel (.separator hb)
    obtain ⟨fuel₂, hfuel₂, hgo₂⟩ := ih (before ++ [b]) hfuel₁
    refine ⟨fuel₂, hfuel₂, ?_⟩
    rw [hgo₁, hgo₂, List.append_assoc]
  | @comment body gap hbody hend h ih =>
    rw [← List.cons_append, List.append_assoc] at hfuel ⊢
    obtain ⟨fuel₁, hfuel₁, hgo₁⟩ := tokenize.go_of_fits_gap hfuel (.comment hbody hend)
    obtain ⟨fuel₂, hfuel₂, hgo₂⟩ := ih (before ++ byte '#' :: body) hfuel₁
    refine ⟨fuel₂, hfuel₂, ?_⟩
    rw [hgo₁, hgo₂, List.append_assoc]

/-- The lexer gives the tokens of a valid layout for its source. -/
theorem tokenize.go_of_layout {layout : Layout} {before : Text} (h : layout.IsValid before)
    {fuel : Nat} (hfuel : layout.source.length ≤ fuel) :
    tokenize.go fuel (Cursor.start.after before) layout.source = .ok (layout.tokens before) := by
  induction layout generalizing before fuel with
  | finish gap =>
    have hgap : Gap [] gap := h
    have hlength : (gap ++ []).length ≤ fuel := by
      rw [List.append_nil]
      exact hfuel
    obtain ⟨fuel', _, hgo⟩ := tokenize.go_of_gap hgap before hlength
    rw [List.append_nil, tokenize.go_nil, Cursor.start_after_position] at hgo
    exact hgo
  | lexeme gap kind text source rest ih =>
    obtain ⟨hgap, hspells, hrest⟩ := h
    obtain ⟨fuel₁, hfuel₁, hgo₁⟩ := tokenize.go_of_gap hgap before hfuel
    obtain ⟨fuel₂, hfuel₂, hgo₂⟩ := tokenize.go_of_fits hfuel₁ (.lexeme hspells)
    rw [Layout.source, hgo₁, hgo₂, ih hrest hfuel₂]
    rfl

namespace Layout

def widen (front : Text) : Layout → Layout
  | finish gap => finish (front ++ gap)
  | lexeme gap kind text source rest => lexeme (front ++ gap) kind text source rest

theorem widen_source (front : Text) (layout : Layout) :
    (layout.widen front).source = front ++ layout.source := by
  cases layout with
  | finish gap => rfl
  | lexeme gap kind text source rest => simp [widen, Layout.source]

theorem widen_tokens (front before : Text) (layout : Layout) :
    (layout.widen front).tokens before = layout.tokens (before ++ front) := by
  cases layout with
  | finish gap => simp [widen, tokens]
  | lexeme gap kind text source rest => simp [widen, tokens]

theorem widen_isValid {front before : Text} {layout : Layout}
    (h : layout.IsValid (before ++ front)) (hfits : Piece.Fits before (.gap front layout.source)) :
    (layout.widen front).IsValid before := by
  have hfront : ∀ rest gap, layout.source = gap ++ rest → Gap rest gap →
      Gap rest (front ++ gap) := by
    intro rest gap hsource hgap
    rw [hsource] at hfits
    cases hfits with
    | separator hb => exact .separator hb hgap
    | comment hbody hend => exact .comment hbody hend hgap
  cases layout with
  | finish gap => exact hfront [] gap (List.append_nil gap).symm h
  | lexeme gap kind text source rest =>
    obtain ⟨hgap, hspells, hrest⟩ := h
    rw [List.append_assoc before front gap] at hspells hrest
    exact ⟨hfront _ gap rfl hgap, hspells, hrest⟩

end Layout

/-- What the lexer accepts has a valid layout with the tokens that it gives. -/
theorem tokenize.exists_layout {fuel : Nat} {cursor : Cursor} {before source : Text}
    {tokens : List Token} (hcursor : cursor = Cursor.start.after before)
    (hfuel : source.length ≤ fuel) (h : tokenize.go fuel cursor source = .ok tokens) :
    ∃ layout : Layout, layout.source = source ∧ layout.IsValid before ∧
      layout.tokens before = tokens := by
  fun_induction tokenize.go fuel cursor source generalizing before tokens with
  | case1 => cases h
  | case2 fuel cursor b rest piece hfirst htoken ih =>
    subst hcursor
    obtain ⟨hsource, hfits⟩ :=
      Piece.fits_of_first (Cursor.start_after_lineStart before).mp hfirst
    obtain ⟨token?, front, rest'⟩ := piece
    obtain rfl : token? = none := htoken
    have hlength := hfits.rest_length_lt hsource
    obtain ⟨layout, rfl, hvalid, htokens⟩ :=
      ih (Cursor.after_append _ before front).symm (by omega) h
    refine ⟨layout.widen front, ?_, Layout.widen_isValid hvalid hfits, ?_⟩
    . rw [Layout.widen_source, hsource]
    . rw [Layout.widen_tokens, htokens]
  | case3 => cases h
  | case4 fuel cursor b rest piece hfirst kind text htoken tail hgo ih =>
    subst hcursor
    cases h
    obtain ⟨hsource, hfits⟩ :=
      Piece.fits_of_first (Cursor.start_after_lineStart before).mp hfirst
    obtain ⟨token?, front, rest'⟩ := piece
    obtain rfl : token? = some (kind, text) := htoken
    have hlength := hfits.rest_length_lt hsource
    obtain ⟨layout, rfl, hvalid, htokens⟩ :=
      ih (Cursor.after_append _ before front).symm (by omega) hgo
    cases hfits with
    | lexeme hspells =>
      refine ⟨.lexeme [] kind text front layout, hsource.symm, ⟨.nil, ?_, ?_⟩, ?_⟩
      . rw [List.append_nil]
        exact hspells
      . rw [List.append_nil]
        exact hvalid
      . rw [Layout.tokens, List.append_nil, htokens, Cursor.start_after_position]
  | case5 fuel cursor source hend =>
    subst hcursor
    cases h
    cases source with
    | cons b rest =>
      cases fuel with
      | zero => simp at hfuel
      | succ fuel => exact (hend fuel b rest rfl rfl).elim
    | nil =>
      refine ⟨.finish [], rfl, .nil, ?_⟩
      rw [Layout.tokens, List.append_nil, Cursor.start_after_position]

def EndsGap (rest : Text) : Prop := ∀ b ∈ rest.head?, ¬ IsSeparator b ∧ b ≠ byte '#'

theorem Spells.unique {before after after' : Text} {kind kind' : TokenKind}
    {text text' source source' : Text} (h : Spells before after kind text source)
    (h' : Spells before after' kind' text' source') (heq : source ++ after = source' ++ after') :
    kind = kind' ∧ text = text' ∧ source = source' ∧ after = after' := by
  -- Both are the first piece that the lexer reads there.
  obtain ⟨b, tail, rfl⟩ := List.exists_cons_of_ne_nil h.source_ne_nil
  have hstart := (Cursor.start_after_lineStart before).mpr
  have hfirst := Piece.first_of_fits hstart (.lexeme h) rfl
  have hfirst' := Piece.first_of_fits hstart (.lexeme h') heq
  cases hfirst.symm.trans hfirst'
  exact ⟨rfl, rfl, rfl, rfl⟩

theorem Spells.endsGap {before after : Text} {kind : TokenKind} {text source : Text}
    (h : Spells before after kind text source) : EndsGap (source ++ after) := by
  obtain ⟨b, tail, rfl⟩ := List.exists_cons_of_ne_nil h.source_ne_nil
  have hfirst := Piece.first_of_fits (Cursor.start_after_lineStart before).mpr (.lexeme h) rfl
  rintro _ ⟨⟩
  constructor
  . intro hb
    cases (Piece.first_separator hb _ _).symm.trans hfirst
  . rintro rfl
    cases hfirst

theorem endsGap_nil : EndsGap [] := nofun

theorem Gap.eq_nil_of_endsGap {rest gap : Text} (h : Gap rest gap) (hend : EndsGap (gap ++ rest)) :
    gap = [] := by
  cases h with
  | nil => rfl
  | separator hb _ => exact absurd hb (hend _ rfl).1
  | comment => exact absurd rfl (hend _ rfl).2

theorem not_isSeparator_sharp : ¬ IsSeparator (byte '#') := by
  unfold IsSeparator IsBlank
  decide

/-- Where one text can be cut into a gap and something else, it can be cut in one place only. -/
theorem Gap.unique {rest rest' gap gap' : Text} (h : Gap rest gap) (h' : Gap rest' gap')
    (hend : EndsGap rest) (hend' : EndsGap rest') (heq : gap ++ rest = gap' ++ rest') :
    gap = gap' ∧ rest = rest' := by
  induction h generalizing gap' with
  | nil =>
    obtain rfl := h'.eq_nil_of_endsGap (heq ▸ hend)
    exact ⟨rfl, heq⟩
  | @separator b gap hb h ih =>
    cases h' with
    | nil =>
      rw [List.nil_append] at heq
      cases (Gap.separator hb h).eq_nil_of_endsGap (heq ▸ hend')
    | separator _ h' =>
      obtain ⟨rfl, htail⟩ := List.cons.inj heq
      obtain ⟨rfl, hrest⟩ := ih h' htail
      exact ⟨rfl, hrest⟩
    | comment =>
      obtain ⟨rfl, _⟩ := List.cons.inj heq
      exact absurd hb not_isSeparator_sharp
  | @comment body gap hbody hendLine h ih =>
    cases h' with
    | nil =>
      rw [List.nil_append] at heq
      cases (Gap.comment hbody hendLine h).eq_nil_of_endsGap (heq ▸ hend')
    | separator hb _ =>
      obtain ⟨rfl, _⟩ := List.cons.inj heq
      exact absurd hb not_isSeparator_sharp
    | @comment body' gap' hbody' hendLine' h' =>
      have htail : body ++ (gap ++ rest) = body' ++ (gap' ++ rest') := by
        simpa using heq
      -- Both comments are the bytes up to the next line feed.
      have hcomment : body = body' := by
        rw [← Text.takeWhile_append_of_stops (forall_bne_of_notMem hbody) hendLine, htail]
        exact Text.takeWhile_append_of_stops (forall_bne_of_notMem hbody') hendLine'
      subst hcomment
      obtain ⟨rfl, hrest⟩ := ih h' (List.append_cancel_left htail)
      exact ⟨rfl, hrest⟩

theorem Layout.unique {before : Text} {layout layout' : Layout} (h : layout.IsValid before)
    (h' : layout'.IsValid before) (heq : layout.source = layout'.source) : layout = layout' := by
  induction layout generalizing before layout' with
  | finish gap =>
    have hgap : Gap [] gap := h
    have hsource : gap ++ [] = layout'.source := (List.append_nil gap).trans heq
    cases layout' with
    | finish gap' =>
      rw [show gap = gap' from heq]
    | lexeme gap' kind' text' source' rest' =>
      obtain ⟨hgap', hspells', _⟩ := h'
      have hnil := (hgap.unique hgap' endsGap_nil hspells'.endsGap hsource).2
      exact absurd (List.append_eq_nil_iff.mp hnil.symm).1 hspells'.source_ne_nil
  | lexeme gap kind text source rest ih =>
    obtain ⟨hgap, hspells, hrest⟩ := h
    cases layout' with
    | finish gap' =>
      have hgap' : Gap [] gap' := h'
      have hsource : gap ++ (source ++ rest.source) = gap' ++ [] :=
        heq.trans (List.append_nil gap').symm
      have hnil := (hgap.unique hgap' hspells.endsGap endsGap_nil hsource).2
      exact absurd (List.append_eq_nil_iff.mp hnil).1 hspells.source_ne_nil
    | lexeme gap' kind' text' source' rest' =>
      obtain ⟨hgap', hspells', hrest'⟩ := h'
      obtain ⟨rfl, htail⟩ := hgap.unique hgap' hspells.endsGap hspells'.endsGap heq
      obtain ⟨rfl, rfl, rfl, hsource⟩ := hspells.unique hspells' htail
      rw [ih hrest hrest' hsource]

structure Layout.LaysOut (layout : Layout) (source : Text) : Prop where
  source_eq : layout.source = source
  isValid : layout.IsValid []

/--
The lexer accepts exactly the sources that can be laid out as gaps and lexemes. There is only one
way to do so, and the tokens are those of its lexemes, each with the place of its first byte.
-/
theorem tokenize_eq_ok_iff_laysOut (source : Text) (tokens : List Token) :
    tokenize source = .ok tokens ↔
      ∃ layout : Layout, layout.LaysOut source ∧ layout.tokens [] = tokens ∧
        ∀ other : Layout, other.LaysOut source → other = layout := by
  constructor
  . intro h
    have hgo : tokenize.go source.length (Cursor.start.after []) source = .ok tokens := h
    obtain ⟨layout, hsource, hvalid, htokens⟩ := tokenize.exists_layout rfl (Nat.le_refl _) hgo
    refine ⟨layout, ⟨hsource, hvalid⟩, htokens, ?_⟩
    intro other hother
    exact Layout.unique hother.isValid hvalid (hother.source_eq.trans hsource.symm)
  . rintro ⟨layout, ⟨rfl, hvalid⟩, rfl, _⟩
    exact tokenize.go_of_layout hvalid (Nat.le_refl _)

/-- A comment, a number before a dot that no digit follows, an escaped quote, and raw SQL. -/
theorem laysOut_tokens_of_comment :
    let source := ascii "a#b\n1.x 'c\\'d'\n >e "
    let tokens : List Token := [
      ⟨.identifier, ascii "a", ⟨1, 1⟩⟩, ⟨.number, ascii "1", ⟨2, 1⟩⟩, ⟨.dot, ascii ".", ⟨2, 2⟩⟩,
      ⟨.identifier, ascii "x", ⟨2, 3⟩⟩, ⟨.string, ascii "c'd", ⟨2, 5⟩⟩,
      ⟨.rawSql, ascii "e", ⟨3, 2⟩⟩, ⟨.endOfInput, [], ⟨3, 5⟩⟩]
    ∃ layout : Layout, layout.LaysOut source ∧ layout.tokens [] = tokens ∧
      ∀ other : Layout, other.LaysOut source → other = layout := by
  intro source tokens
  have h : tokenize source = .ok tokens := by decide +kernel
  exact (tokenize_eq_ok_iff_laysOut source tokens).mp h

end SchemaMigration.Schema
