import SchemaMigration.Proofs.Schema.Tokenizing
import SchemaMigration.Run.Run

/-!
This module contains that line endings do not matter: a source in which a carriage return stands
before every line feed has the tokens of the source without them, at the same places, as long as no
string goes over the end of a line.
-/

namespace SchemaMigration.Schema

def withCarriageReturns (source : Text) : Text :=
  source.flatMap fun b => if b == byte '\n' then [byte '\r', byte '\n'] else [b]

theorem withCarriageReturns_append (t u : Text) :
    withCarriageReturns (t ++ u) = withCarriageReturns t ++ withCarriageReturns u :=
  List.flatMap_append

theorem withCarriageReturns_lineFeed (t : Text) :
    withCarriageReturns (byte '\n' :: t) = byte '\r' :: byte '\n' :: withCarriageReturns t := rfl

theorem withCarriageReturns_cons {b : UInt8} (hb : b ≠ byte '\n') (t : Text) :
    withCarriageReturns (b :: t) = b :: withCarriageReturns t := by
  simp [withCarriageReturns, hb]

theorem withCarriageReturns_of_notMem {t : Text} (h : byte '\n' ∉ t) :
    withCarriageReturns t = t := by
  induction t with
  | nil => rfl
  | cons b t ih =>
    rw [List.mem_cons, not_or] at h
    rw [withCarriageReturns_cons (Ne.symm h.1), ih h.2]

theorem stops_withCarriageReturns {p : UInt8 → Bool} (hp : p (byte '\r') = false) {t : Text}
    (h : t.Stops p) : (withCarriageReturns t).Stops p := by
  cases t with
  | nil => trivial
  | cons b t =>
    by_cases hb : b = byte '\n'
    . subst hb
      exact hp
    . rw [withCarriageReturns_cons hb]
      exact h

theorem beginsFraction_of_withCarriageReturns {t : Text}
    (h : BeginsFraction (withCarriageReturns t)) : BeginsFraction t := by
  obtain ⟨d, after, heq, hd⟩ := h
  match t with
  | [] => cases heq
  | [b] =>
    by_cases hb : b = byte '\n'
    . subst hb
      cases heq
    . rw [withCarriageReturns_cons hb] at heq
      cases heq
  | b :: c :: t =>
    by_cases hb : b = byte '\n'
    . subst hb
      cases heq
    . rw [withCarriageReturns_cons hb] at heq
      obtain ⟨rfl, htail⟩ := List.cons.inj heq
      by_cases hc : c = byte '\n'
      . subst hc
        cases htail
        cases hd
      . rw [withCarriageReturns_cons hc] at htail
        cases htail
        exact ⟨_, _, rfl, hd⟩

theorem lineFeed_notMem {p : UInt8 → Bool} (hp : p (byte '\n') = false) {t : Text}
    (h : ∀ b ∈ t, p b = true) : byte '\n' ∉ t := by
  intro hmem
  rw [h _ hmem] at hp
  cases hp

theorem IsWord.isWordPart {t : Text} (h : IsWord t) : ∀ b ∈ t, Byte.isWordPart b = true := by
  cases t with
  | nil => exact nofun
  | cons b t => exact List.forall_mem_cons.mpr ⟨isWordPart_of_isWordStart h.1, h.2⟩

/-- Only a string can go over the end of a line. -/
theorem Spells.lineFeed_notMem {before after : Text} {kind : TokenKind} {text source : Text}
    (h : Spells before after kind text source) (hkind : kind ≠ .string) : byte '\n' ∉ source := by
  have hword : ∀ {word : Text}, IsWord word → byte '\n' ∉ word :=
    fun hword => Schema.lineFeed_notMem (by decide) hword.isWordPart
  cases h with
  | punctuation h =>
    simp only [punctuationMarks, List.mem_cons, Prod.mk.injEq, List.not_mem_nil, or_false] at h
    obtain ⟨rfl, _⟩ | ⟨rfl, _⟩ | ⟨rfl, _⟩ | ⟨rfl, _⟩ | ⟨rfl, _⟩ | ⟨rfl, _⟩ := h
    all_goals decide
  | decorator hname _ =>
    rw [List.mem_cons, not_or]
    exact ⟨by decide, Schema.lineFeed_notMem (by decide) hname.2⟩
  | model hmodel _ _ => exact hword hmodel
  | type type _ => exact hword (isWord_name type)
  | identifier hname _ => exact hword hname.1
  | integer hdigits _ _ => exact Schema.lineFeed_notMem (by decide) hdigits.2
  | fraction hwhole hplaces _ =>
    rw [List.mem_append, List.mem_cons, not_or, not_or]
    refine ⟨Schema.lineFeed_notMem (by decide) hwhole.2, by decide, ?_⟩
    exact Schema.lineFeed_notMem (by decide) hplaces.2
  | string => exact absurd rfl hkind
  | rawSql _ hline _ _ =>
    rw [List.mem_cons, not_or]
    exact ⟨by decide, hline⟩

/-- A lexeme other than raw SQL does not mind a carriage return at the end of its line. -/
theorem Spells.withCarriageReturns {before after : Text} {kind : TokenKind} {text source : Text}
    (h : Spells before after kind text source) (hkind : kind ≠ .rawSql) :
    Spells before (withCarriageReturns after) kind text source := by
  apply h.imp id
  . exact stops_withCarriageReturns (by decide)
  . exact stops_withCarriageReturns (by decide)
  . exact beginsFraction_of_withCarriageReturns
  . intro hraw
    exact absurd hraw hkind

theorem Trims.append {line text back : Text} (h : Trims line text)
    (hback : ∀ b ∈ back, Byte.isSpace b = true) : Trims (line ++ back) text := by
  obtain ⟨⟨front, last, rfl, hfront, hlast⟩, hhead, hend⟩ := h
  refine ⟨⟨front, last ++ back, List.append_assoc _ _ _, hfront, ?_⟩, hhead, hend⟩
  exact List.forall_mem_append.mpr ⟨hlast, hback⟩

def Yields (cursor : Cursor) (source : Text) (tokens : List Token) : Prop :=
  ∀ fuel, source.length ≤ fuel → tokenize.go fuel cursor source = .ok tokens

namespace Yields

variable {before rest : Text} {tokens : List Token}

theorem of_fits {token? : Option (TokenKind × Text)} {source : Text}
    (hfits : Piece.Fits before ⟨token?, source, rest⟩)
    (h : Yields (Cursor.start.after (before ++ source)) rest tokens) :
    Yields (Cursor.start.after before) (source ++ rest)
      (Piece.tokens ⟨token?, source, rest⟩ (placeBehind before) ++ tokens) := by
  intro fuel hfuel
  obtain ⟨fuel', hrest, hgo⟩ := tokenize.go_of_fits hfuel hfits
  rw [hgo, h fuel' hrest]
  rfl

theorem separator {b : UInt8} (hb : IsSeparator b)
    (h : Yields (Cursor.start.after (before ++ [b])) rest tokens) :
    Yields (Cursor.start.after before) (b :: rest) tokens :=
  of_fits (.separator hb) h

theorem behind_separator {b : UInt8} (hb : IsSeparator b)
    (h : Yields (Cursor.start.after before) (b :: rest) tokens) :
    Yields (Cursor.start.after (before ++ [b])) rest tokens := by
  intro fuel hfuel
  have hgo := h (fuel + 1) (Nat.succ_le_succ hfuel)
  unfold tokenize.go at hgo
  rw [Piece.first_separator hb] at hgo
  rw [Cursor.after_append]
  exact hgo

/-- The end of a line makes up for a carriage return before it. -/
theorem lineFeed (h : Yields (Cursor.start.after (before ++ [byte '\n'])) rest tokens) :
    Yields (Cursor.start.after before) (byte '\r' :: byte '\n' :: rest) tokens := by
  apply separator (.inl (.inr (.inr rfl)))
  apply separator (.inr rfl)
  rw [Cursor.after_append] at h
  rw [List.append_assoc, Cursor.after_append]
  exact h

/-- At the end of a line, a carriage return can be counted to what stands before it. -/
theorem exists_lineEnd (hend : EndsLine rest)
    (h : Yields (Cursor.start.after before) (withCarriageReturns rest) tokens) :
    ∃ returns rest', withCarriageReturns rest = returns ++ rest' ∧
      (∀ b ∈ returns, b = byte '\r') ∧ EndsLine rest' ∧
        Yields (Cursor.start.after (before ++ returns)) rest' tokens := by
  cases rest with
  | nil =>
    refine ⟨[], [], rfl, nofun, trivial, ?_⟩
    rw [List.append_nil]
    exact h
  | cons b rest =>
    obtain rfl : b = byte '\n' := by simpa [EndsLine, Text.Stops] using hend
    refine ⟨[byte '\r'], byte '\n' :: withCarriageReturns rest, rfl, ?_, ?_, ?_⟩
    . exact List.forall_mem_singleton.mpr rfl
    . exact rfl
    . exact behind_separator (.inl (.inr (.inr rfl))) h

theorem gap {gap : Text} (hgap : Gap rest gap)
    (h : Yields (Cursor.start.after (before ++ gap)) (withCarriageReturns rest) tokens) :
    Yields (Cursor.start.after before) (withCarriageReturns (gap ++ rest)) tokens := by
  induction hgap generalizing before with
  | nil =>
    rw [List.append_nil] at h
    exact h
  | @separator b gap hb hgap ih =>
    rw [← List.singleton_append, ← List.append_assoc] at h
    have hrest := ih h
    rw [List.cons_append]
    by_cases hfeed : b = byte '\n'
    . subst hfeed
      rw [withCarriageReturns_lineFeed]
      exact hrest.lineFeed
    . rw [withCarriageReturns_cons hfeed]
      exact hrest.separator hb
  | @comment body gap hbody hend hgap ih =>
    rw [← List.cons_append, ← List.append_assoc] at h
    obtain ⟨returns, rest', hsplit, hreturns, hend', hrest⟩ := exists_lineEnd hend (ih h)
    have hcomment : byte '\n' ∉ body ++ returns := by
      rw [List.mem_append, not_or]
      refine ⟨hbody, ?_⟩
      intro hmem
      cases hreturns _ hmem
    have hsource : withCarriageReturns (byte '#' :: (body ++ gap) ++ rest) =
        byte '#' :: (body ++ returns) ++ rest' := by
      rw [List.cons_append, withCarriageReturns_cons (by decide), List.append_assoc,
        withCarriageReturns_append, withCarriageReturns_of_notMem hbody, hsplit]
      simp
    rw [hsource]
    rw [List.append_assoc, List.cons_append] at hrest
    exact of_fits (.comment hcomment hend') hrest

end Yields

namespace Layout

def StringsOnOneLine : Layout → Prop
  | finish _ => True
  | lexeme _ kind _ source rest =>
    (kind = .string → byte '\n' ∉ source) ∧ rest.StringsOnOneLine

/-- The carriage return behind raw SQL is part of its line and is trimmed off. -/
theorem yields_rawSql {before rest : Text} {kind : TokenKind} {text source : Text}
    {tokens : List Token} (hspells : Spells before rest kind text source) (hkind : kind = .rawSql)
    (h : Yields (Cursor.start.after (before ++ source)) (withCarriageReturns rest) tokens) :
    Yields (Cursor.start.after before) (source ++ withCarriageReturns rest)
      (⟨kind, text, placeBehind before⟩ :: tokens) := by
  cases hspells with
  | @rawSql line text hstart hline hend htext =>
    obtain ⟨returns, rest', hsplit, hreturns, hend', hrest⟩ := Yields.exists_lineEnd hend h
    have hline' : byte '\n' ∉ line ++ returns := by
      rw [List.mem_append, not_or]
      refine ⟨hline, ?_⟩
      intro hmem
      cases hreturns _ hmem
    have htext' : Trims (line ++ returns) text := by
      apply htext.append
      intro b hb
      rw [hreturns b hb]
      rfl
    rw [hsplit, ← List.append_assoc]
    rw [List.append_assoc] at hrest
    exact Yields.of_fits (.lexeme (.rawSql hstart hline' hend' htext')) hrest
  | punctuation h =>
    subst hkind
    simp [punctuationMarks] at h
  | _ => cases hkind

theorem yields_withCarriageReturns {layout : Layout} {before : Text} (h : layout.IsValid before)
    (hstrings : layout.StringsOnOneLine) :
    Yields (Cursor.start.after before) (withCarriageReturns layout.source)
      (layout.tokens before) := by
  induction layout generalizing before with
  | finish gap =>
    have hgap : Gap [] gap := h
    have hend : Yields (Cursor.start.after (before ++ gap)) (withCarriageReturns [])
        [⟨.endOfInput, [], placeBehind (before ++ gap)⟩] := by
      intro fuel _
      rw [← Cursor.start_after_position]
      exact tokenize.go_nil fuel _
    have hyields := hend.gap hgap
    rw [List.append_nil] at hyields
    exact hyields
  | lexeme gap kind text source rest ih =>
    obtain ⟨hgap, hspells, hrest⟩ := h
    have hline : byte '\n' ∉ source := by
      by_cases hkind : kind = .string
      . exact hstrings.1 hkind
      . exact hspells.lineFeed_notMem hkind
    have htail := ih hrest hstrings.2
    apply Yields.gap hgap
    rw [withCarriageReturns_append, withCarriageReturns_of_notMem hline]
    by_cases hkind : kind = .rawSql
    . exact yields_rawSql hspells hkind htail
    . exact Yields.of_fits (.lexeme (hspells.withCarriageReturns hkind)) htail

end Layout

/--
A source without a string over the end of a line, and the same source with a carriage return before
every line feed, have the same tokens at the same places, and so the same tree and the same
statements.
-/
theorem tokenize_withCarriageReturns {source : Text} {tokens : List Token}
    (h : tokenize source = .ok tokens)
    (hstrings : ∀ layout : Layout, layout.LaysOut source → layout.StringsOnOneLine) :
    tokenize (withCarriageReturns source) = .ok tokens ∧
      parse (withCarriageReturns source) = parse source ∧
        ∀ dialect direction name,
          Run.statements dialect direction ⟨name, withCarriageReturns source⟩ =
            Run.statements dialect direction ⟨name, source⟩ := by
  have htokens : tokenize (withCarriageReturns source) = .ok tokens := by
    have hgo : tokenize.go source.length (Cursor.start.after []) source = .ok tokens := h
    obtain ⟨layout, hsource, hvalid, rfl⟩ := tokenize.exists_layout rfl (Nat.le_refl _) hgo
    have hyields := Layout.yields_withCarriageReturns hvalid (hstrings layout ⟨hsource, hvalid⟩)
    rw [hsource] at hyields
    exact hyields _ (Nat.le_refl _)
  have hparse : parse (withCarriageReturns source) = parse source := by
    unfold parse
    rw [htokens, h]
  refine ⟨htokens, hparse, ?_⟩
  intro dialect direction name
  unfold Run.statements
  rw [hparse]

/-- A model with a string, a comment at the end of a line, and raw SQL with a blank behind it. -/
theorem tokenize_withCarriageReturns_of_comment :
    let source := ascii "model A\x7bb Enum('c')\x7d#d\n>e \n"
    tokenize (withCarriageReturns source) = tokenize source ∧
      parse (withCarriageReturns source) =
        .ok ⟨[⟨ascii "A", [⟨ascii "b", ascii "Enum", ⟨true, [ascii "c"]⟩, []⟩]⟩], [ascii "e"]⟩ := by
  intro source
  let layout : Layout :=
    .lexeme [] .model (ascii "model") (ascii "model") <|
    .lexeme (ascii " ") .identifier (ascii "A") (ascii "A") <|
    .lexeme [] .leftBrace (ascii "\x7b") (ascii "\x7b") <|
    .lexeme [] .identifier (ascii "b") (ascii "b") <|
    .lexeme (ascii " ") .type (ascii "Enum") (ascii "Enum") <|
    .lexeme [] .leftParen (ascii "(") (ascii "(") <|
    .lexeme [] .string (ascii "c") (ascii "'c'") <|
    .lexeme [] .rightParen (ascii ")") (ascii ")") <|
    .lexeme [] .rightBrace (ascii "\x7d") (ascii "\x7d") <|
    .lexeme (ascii "#d\n") .rawSql (ascii "e") (ascii ">e ") <|
    .finish (ascii "\n")
  have hblank : ∀ rest, Gap rest (ascii " ") := fun _ => .separator (.inl (.inl rfl)) .nil
  have hfeed : ∀ rest, Gap rest (ascii "\n") := fun _ => .separator (.inr rfl) .nil
  have hmodel : IsWord (ascii "model") := ⟨rfl, by decide +kernel⟩
  have hname : ∀ {b : UInt8}, Byte.isWordStart b = true → isReservedWord [b] = false →
      IsName [b] :=
    fun hb hreserved => ⟨⟨hb, nofun⟩, hreserved⟩
  have hstring : Quotes (byte '\'') (ascii "c") (ascii "c") := .plain (by decide) (by decide) .nil
  have hline : AtLineStart (ascii "model A\x7bb Enum('c')\x7d#d\n") :=
    ⟨ascii "model A\x7bb Enum('c')\x7d#d\n", [], rfl, nofun, by decide +kernel⟩
  have hvalid : layout.IsValid [] := by
    refine ⟨.nil, .model hmodel rfl rfl, ?_⟩
    refine ⟨hblank _, .identifier (hname rfl (by decide)) rfl, ?_⟩
    refine ⟨.nil, .punctuation (by decide), ?_⟩
    refine ⟨.nil, .identifier (hname rfl (by decide)) rfl, ?_⟩
    refine ⟨hblank _, .type .enumeration rfl, ?_⟩
    refine ⟨.nil, .punctuation (by decide), ?_⟩
    refine ⟨.nil, .string (.inl rfl) hstring, ?_⟩
    refine ⟨.nil, .punctuation (by decide), ?_⟩
    refine ⟨.nil, .punctuation (by decide), ?_⟩
    refine ⟨@Gap.comment _ (ascii "d") _ (by decide) rfl (hfeed _), ?_, hfeed _⟩
    exact .rawSql hline (by decide) rfl (trims_trim (ascii "e "))
  have htokens : tokenize source = .ok (layout.tokens []) := by decide +kernel
  have hstrings : ∀ other : Layout, other.LaysOut source → other.StringsOnOneLine := by
    intro other hother
    rw [Layout.unique hother.isValid hvalid hother.source_eq]
    have hliteral : byte '\n' ∉ ascii "'c'" := by decide
    exact ⟨nofun, nofun, nofun, nofun, nofun, nofun, fun _ => hliteral, nofun, nofun, nofun,
      trivial⟩
  obtain ⟨hsame, hparse, _⟩ := tokenize_withCarriageReturns htokens hstrings
  rw [hsame, hparse]
  decide +kernel

end SchemaMigration.Schema
