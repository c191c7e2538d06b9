import SchemaMigration.Proofs.Schema.Layout

/-!
This module contains what the lexer reads: that the first piece of a source is one that the lexical
grammar allows there, which texts the tokens of each kind can have, and, for each kind of lexeme,
that a source which begins with it reads as this lexeme and then as the rest. Places do not matter
here, except for whether a source stands at the start of a line.
-/

namespace SchemaMigration.Schema

abbrev Lexeme := TokenKind × Text

def Token.lexeme (t : Token) : Lexeme := (t.kind, t.text)

def Lexeme.Valid : Lexeme → Prop
  | (.identifier, t) => IsName t
  | (.type, t) => isScalarType t = true
  | (.decorator, t) => IsDecoratorName t
  | (.rawSql, t) => IsTrimmedLine t
  | (.endOfInput, _) => False
  | _ => True

theorem atLineStart_nil : AtLineStart [] := ⟨[], [], rfl, nofun, nofun⟩

theorem trims_trim (line : Text) : Trims line line.trim := by
  have hfront := (List.takeWhile_append_dropWhile (p := Byte.isSpace) (l := line)).symm
  have hback := (List.takeWhile_append_dropWhile (p := Byte.isSpace)
    (l := (line.dropWhile Byte.isSpace).reverse)).symm
  have hline : line = line.takeWhile Byte.isSpace ++ line.trim ++
      ((line.dropWhile Byte.isSpace).reverse.takeWhile Byte.isSpace).reverse := by
    rw [Text.trim, List.append_assoc, ← List.reverse_append, ← hback, List.reverse_reverse]
    exact hfront
  refine ⟨⟨_, _, hline, ?_, ?_⟩, ?_, ?_⟩
  . intro b hb
    exact List.mem_takeWhile_imp hb
  . intro b hb
    exact List.mem_takeWhile_imp (List.mem_reverse.mp hb)
  . intro b hb
    -- The first byte of what is left is also the first one behind the white space in front.
    apply Text.head?_dropWhile_false Byte.isSpace line
    rw [← List.reverse_reverse (line.dropWhile Byte.isSpace), hback, List.reverse_append]
    exact List.mem_head?_append_of_mem_head? hb
  . intro b hb
    rw [Text.trim, List.getLast?_reverse] at hb
    exact Text.head?_dropWhile_false _ _ b hb

theorem trim_of_trims {line text : Text} (h : Trims line text) : line.trim = text := by
  obtain ⟨⟨front, back, rfl, hfront, hback⟩, hhead, hlast⟩ := h
  have hstop : Text.Stops Byte.isSpace text.reverse := by
    apply Text.stops_of_head?
    rw [List.head?_reverse]
    exact hlast
  unfold Text.trim
  cases text with
  | nil =>
    have hall : (front ++ [] ++ back).dropWhile Byte.isSpace = [] := by
      apply List.dropWhile_eq_nil_iff.mpr
      intro b hb
      rw [List.append_nil] at hb
      exact (List.mem_append.mp hb).elim (hfront b) (hback b)
    rw [hall]
    rfl
  | cons b tail =>
    have hb : Text.Stops Byte.isSpace (b :: tail ++ back) := hhead b rfl
    rw [List.append_assoc, Text.dropWhile_append_of_stops hfront hb, List.reverse_append]
    rw [Text.dropWhile_append_of_stops _ hstop, List.reverse_reverse]
    intro b hb
    exact hback b (List.mem_reverse.mp hb)

theorem forall_bne_of_notMem {b : UInt8} {t : Text} (h : b ∉ t) : ∀ c ∈ t, (c != b) = true := by
  intro c hc
  apply bne_iff_ne.mpr
  rintro rfl
  exact h hc

theorem Spells.valid {before after : Text} {kind : TokenKind} {text source : Text}
    (h : Spells before after kind text source) : Lexeme.Valid (kind, text) := by
  cases h with
  | punctuation h =>
    simp only [punctuationMarks, List.mem_cons, Prod.mk.injEq, List.not_mem_nil, or_false] at h
    obtain ⟨rfl, rfl⟩ | ⟨rfl, rfl⟩ | ⟨rfl, rfl⟩ | ⟨rfl, rfl⟩ | ⟨rfl, rfl⟩ | ⟨rfl, rfl⟩ := h
    all_goals trivial
  | decorator hname _ => exact hname
  | model => trivial
  | type type _ =>
    cases type
    all_goals rfl
  | identifier hname _ => exact hname
  | integer => trivial
  | fraction => trivial
  | string => trivial
  | rawSql _ hline _ htext =>
    obtain ⟨⟨front, back, rfl, _, _⟩, hhead, hlast⟩ := htext
    refine ⟨?_, hhead, hlast⟩
    intro hmem
    apply hline
    simp [hmem]

theorem Spells.source_ne_nil {before after : Text} {kind : TokenKind} {text source : Text}
    (h : Spells before after kind text source) : source ≠ [] := by
  cases h with
  | model hword _ _ =>
    rintro rfl
    exact hword
  | type type _ =>
    cases type
    all_goals nofun
  | identifier hname _ =>
    rintro rfl
    exact hname.1
  | integer hdigits _ _ => exact hdigits.1
  | _ => simp

/-- A lexeme may be moved to where it still ends, and where raw SQL still has its line. -/
theorem Spells.imp {before before' after after' : Text} {kind : TokenKind} {text source : Text}
    (h : Spells before after kind text source) (hstart : AtLineStart before → AtLineStart before')
    (hword : after.Stops Byte.isWordPart → after'.Stops Byte.isWordPart)
    (hdigit : after.Stops Byte.isDigit → after'.Stops Byte.isDigit)
    (hfraction : BeginsFraction after' → BeginsFraction after)
    (hend : kind = .rawSql → EndsLine after → EndsLine after') :
    Spells before' after' kind text source := by
  cases h with
  | punctuation h => exact .punctuation h
  | decorator hname hstop => exact .decorator hname (hword hstop)
  | model hmodel hkeyword hstop => exact .model hmodel hkeyword (hword hstop)
  | type type hstop => exact .type type (hword hstop)
  | identifier hname hstop => exact .identifier hname (hword hstop)
  | integer hdigits hstop hwhole => exact .integer hdigits (hdigit hstop) (mt hfraction hwhole)
  | fraction hwhole hplaces hstop => exact .fraction hwhole hplaces (hdigit hstop)
  | string hquote h => exact .string hquote h
  | rawSql hbefore hline hafter htext =>
    exact .rawSql (hstart hbefore) hline (hend rfl hafter) htext

theorem isDigits_iff {t : Text} : isBareNumber.isDigits t = true ↔ IsDigits t := by
  simp [isBareNumber.isDigits, IsDigits]

theorem isDigits_cons {d : UInt8} {tail : Text} :
    IsDigits (d :: tail) ↔ Byte.isDigit d = true ∧ ∀ b ∈ tail, Byte.isDigit b = true := by
  simp [IsDigits]

theorem splitFirst_dot {front back : Text} (h : ∀ b ∈ front, (b == byte '.') = false) :
    Text.splitFirst (· == byte '.') (front ++ byte '.' :: back) = (front, some back) :=
  Text.splitFirst_append_cons (beq_self_eq_true _) h

theorem IsDigits.ne_dot {t : Text} (h : IsDigits t) : ∀ b ∈ t, (b == byte '.') = false := by
  intro b hb
  exact beq_false_of_class (h.2 b hb) rfl

theorem isBareNumber_iff {t : Text} :
    isBareNumber t = true ↔
      IsDigits t ∨ ∃ whole places, t = whole ++ byte '.' :: places ∧ IsDigits whole ∧
        IsDigits places := by
  constructor
  . intro h
    unfold isBareNumber at h
    split at h
    . next whole hsplit =>
      obtain ⟨rfl, _⟩ := Text.splitFirst_eq_none hsplit
      exact .inl (isDigits_iff.mp h)
    . next whole places hsplit =>
      obtain ⟨dot, ht, hdot, _⟩ := Text.splitFirst_eq_some hsplit
      rw [beq_iff_eq.mp hdot] at ht
      rw [Bool.and_eq_true, isDigits_iff, isDigits_iff] at h
      exact .inr ⟨whole, places, ht, h.1, h.2⟩
  . intro h
    unfold isBareNumber
    cases h with
    | inl hdigits =>
      rw [Text.splitFirst_of_forall hdigits.ne_dot]
      exact isDigits_iff.mpr hdigits
    | inr h =>
      obtain ⟨whole, places, rfl, hwhole, hplaces⟩ := h
      rw [splitFirst_dot hwhole.ne_dot]
      simp only [Bool.and_eq_true, isDigits_iff]
      exact ⟨hwhole, hplaces⟩

namespace Piece

theorem first_of_isWordPart {b : UInt8} (hb : Byte.isWordPart b = true) (lineStart : Bool)
    (rest : Text) :
    first lineStart b rest =
      if Byte.isWordStart b then
        .ok (lexeme (wordKind (b :: rest.takeWhile Byte.isWordPart))
          (b :: rest.takeWhile Byte.isWordPart) (b :: rest.takeWhile Byte.isWordPart)
          (rest.dropWhile Byte.isWordPart))
      else
        .ok (lexeme .number (b :: numberTail rest) (b :: numberTail rest)
          (rest.drop (numberTail rest).length)) := by
  have h : ∀ c, Byte.isWordPart c = false → (b == c) = false := by
    intro c hc
    exact beq_false_of_class hb hc
  have hdigit : Byte.isWordStart b = false → Byte.isDigit b = true := by
    intro hstart
    simpa [Byte.isWordPart, hstart] using hb
  unfold first
  simp only [h (byte ' ') (by decide), h (byte '\t') (by decide), h (byte '\r') (by decide),
    h (byte '\n') (by decide), h (byte '#') (by decide), h (byte '@') (by decide),
    h (byte '\'') (by decide), h (byte '"') (by decide), h (byte '>') (by decide),
    punctuation?, h (byte '(') (by decide), h (byte ')') (by decide), h (byte '{') (by decide),
    h (byte '}') (by decide), h (byte ',') (by decide), h (byte '.') (by decide)]
  cases hstart : Byte.isWordStart b with
  | true => simp
  | false => simp [hdigit hstart]

theorem first_word {b : UInt8} {word tail rest : Text} (hword : IsWord word)
    (hstop : rest.Stops Byte.isWordPart) (lineStart : Bool) (hsource : b :: tail = word ++ rest) :
    first lineStart b tail = .ok (lexeme (wordKind word) word word rest) := by
  cases word with
  | nil => cases hword
  | cons c more =>
    obtain ⟨rfl, rfl⟩ : b = c ∧ tail = more ++ rest := List.cons.inj hsource
    rw [first_of_isWordPart (isWordPart_of_isWordStart hword.1), if_pos hword.1]
    rw [Text.takeWhile_append_of_stops hword.2 hstop, Text.dropWhile_append_of_stops hword.2 hstop]

theorem first_number {d : UInt8} (hd : Byte.isDigit d = true) {tail rest : Text}
    (htail : numberTail (tail ++ rest) = tail) (lineStart : Bool) :
    first lineStart d (tail ++ rest) = .ok (lexeme .number (d :: tail) (d :: tail) rest) := by
  have hstart := Byte.isWordStart_of_isDigit hd
  rw [first_of_isWordPart (by simp [Byte.isWordPart, hd]), if_neg (by simp [hstart])]
  rw [htail, List.drop_left]

theorem first_punctuation {b : UInt8} {kind : TokenKind} (hkind : punctuation? b = some kind)
    (lineStart : Bool) (rest : Text) :
    first lineStart b rest = .ok (lexeme kind [b] [b] rest) := by
  unfold punctuation? at hkind
  repeat' split at hkind
  all_goals
    cases hkind
    try next hb =>
      rw [beq_iff_eq.mp hb]
      rfl

theorem first_decorator {name rest : Text} (hname : IsDecoratorName name)
    (hstop : rest.Stops Byte.isWordPart) (lineStart : Bool) :
    first lineStart (byte '@') (name ++ rest) =
      .ok (lexeme .decorator name (byte '@' :: name) rest) := by
  have htake := Text.takeWhile_append_of_stops hname.2 hstop
  have hdrop := Text.dropWhile_append_of_stops hname.2 hstop
  obtain ⟨b, tail, rfl⟩ := List.exists_cons_of_ne_nil hname.1
  unfold first
  rw [if_neg (by decide), if_neg (by decide), if_pos (by decide)]
  rw [htake, hdrop]

theorem first_string {quote : UInt8} (hquote : quote = byte '\'' ∨ quote = byte '"')
    {t value source rest : Text} (hbody : stringBody? quote t = some (value, source, rest))
    (lineStart : Bool) :
    first lineStart quote t = .ok (lexeme .string value (quote :: source) rest) := by
  unfold first
  cases hquote with
  | inl h =>
    subst h
    rw [if_neg (by decide), if_neg (by decide), if_neg (by decide), if_pos (by decide), hbody]
  | inr h =>
    subst h
    rw [if_neg (by decide), if_neg (by decide), if_neg (by decide), if_pos (by decide), hbody]

theorem first_rawSql {line rest : Text} (hline : byte '\n' ∉ line)
    (hstop : rest.Stops (· != byte '\n')) :
    first true (byte '>') (line ++ rest) =
      .ok (lexeme .rawSql line.trim (byte '>' :: line) rest) := by
  have hall := forall_bne_of_notMem hline
  unfold first
  rw [if_neg (by decide), if_neg (by decide), if_neg (by decide), if_neg (by decide)]
  rw [show punctuation? (byte '>') = none from rfl]
  simp only [beq_self_eq_true, Bool.and_self, ↓reduceIte]
  rw [Text.takeWhile_append_of_stops hall hstop, Text.dropWhile_append_of_stops hall hstop]

theorem first_separator {b : UInt8} (hb : IsSeparator b) (lineStart : Bool) (rest : Text) :
    first lineStart b rest = .ok (gap [b] rest) := by
  obtain (rfl | rfl | rfl) | rfl := hb
  all_goals rfl

theorem first_comment {body rest : Text} (hbody : byte '\n' ∉ body) (hend : EndsLine rest)
    (lineStart : Bool) :
    first lineStart (byte '#') (body ++ rest) = .ok (gap (byte '#' :: body) rest) := by
  have hall := forall_bne_of_notMem hbody
  unfold first
  rw [if_neg (by decide), if_pos (by decide)]
  rw [Text.takeWhile_append_of_stops hall hend, Text.dropWhile_append_of_stops hall hend]

theorem punctuation?_eq_some_iff {b : UInt8} {kind : TokenKind} :
    punctuation? b = some kind ↔ (b, kind) ∈ punctuationMarks := by
  constructor
  . intro h
    unfold punctuation? at h
    repeat' split at h
    all_goals
      cases h
      try next hb =>
        rw [beq_iff_eq.mp hb]
        decide
  . intro h
    simp only [punctuationMarks, List.mem_cons, Prod.mk.injEq, List.not_mem_nil, or_false] at h
    obtain ⟨rfl, rfl⟩ | ⟨rfl, rfl⟩ | ⟨rfl, rfl⟩ | ⟨rfl, rfl⟩ | ⟨rfl, rfl⟩ | ⟨rfl, rfl⟩ := h
    all_goals rfl

theorem escapes_iff {e b : UInt8} : Escapes e b ↔ unescape e = b := by
  constructor
  . intro h
    cases h with
    | lineFeed => rfl
    | tab => rfl
    | carriageReturn => rfl
    | itself hn ht hr => simp [unescape, hn, ht, hr]
  . rintro rfl
    unfold unescape
    split
    . next hn => exact beq_iff_eq.mp hn ▸ .lineFeed
    . split
      . next ht => exact beq_iff_eq.mp ht ▸ .tab
      . split
        . next hr => exact beq_iff_eq.mp hr ▸ .carriageReturn
        . next hn ht hr => exact .itself (by simpa using hn) (by simpa using ht) (by simpa using hr)

theorem stringBody?_of_quotes {quote : UInt8} (hquote : quote ≠ byte '\\') {body value : Text}
    (h : Quotes quote body value) (rest : Text) :
    stringBody? quote (body ++ quote :: rest) = some (value, body ++ [quote], rest) := by
  induction h with
  | nil =>
    rw [stringBody?.eq_def]
    simp
  | plain hne hslash h ih =>
    rw [stringBody?.eq_def]
    simp [hne, hslash, ih]
  | escaped he h ih => simp [stringBody?, hquote.symm, ih, escapes_iff.mp he]

theorem quotes_of_stringBody? {quote : UInt8} {t value source rest : Text}
    (h : stringBody? quote t = some (value, source, rest)) :
    ∃ body, source = body ++ [quote] ∧ t = body ++ quote :: rest ∧ Quotes quote body value := by
  fun_induction stringBody? quote t generalizing value source with
  | case1 => cases h
  | case2 b tail hquote =>
    cases h
    rw [beq_iff_eq.mp hquote]
    exact ⟨[], rfl, rfl, .nil⟩
  | case3 => cases h
  | case4 => cases h
  | case5 b hquote hslash e tail v s r hbody ih =>
    cases h
    obtain ⟨body, rfl, rfl, hvalue⟩ := ih hbody
    rw [beq_iff_eq.mp hslash]
    exact ⟨byte '\\' :: e :: body, rfl, rfl, .escaped (escapes_iff.mpr rfl) hvalue⟩
  | case6 => cases h
  | case7 b tail hquote hslash v s r hbody ih =>
    cases h
    obtain ⟨body, rfl, rfl, hvalue⟩ := ih hbody
    refine ⟨b :: body, rfl, rfl, ?_⟩
    exact .plain (by simpa using hquote) (by simpa using hslash) hvalue

theorem quotes_escape (b : UInt8) {source value : Text} (h : Quotes (byte '"') source value) :
    Quotes (byte '"') (Printer.escape b ++ source) (b :: value) := by
  unfold Printer.escape
  split
  . next hb => exact beq_iff_eq.mp hb ▸ .escaped .lineFeed h
  . split
    . next hb => exact beq_iff_eq.mp hb ▸ .escaped .tab h
    . split
      . next hb => exact beq_iff_eq.mp hb ▸ .escaped .carriageReturn h
      . split
        . next hb =>
          obtain rfl := beq_iff_eq.mp hb
          exact .escaped (.itself (by decide) (by decide) (by decide)) h
        . split
          . next hb =>
            obtain rfl := beq_iff_eq.mp hb
            exact .escaped (.itself (by decide) (by decide) (by decide)) h
          . next hslash hquote => exact .plain (by simpa using hquote) (by simpa using hslash) h

theorem quotes_flatMap_escape (t : Text) : Quotes (byte '"') (t.flatMap Printer.escape) t := by
  induction t with
  | nil => exact .nil
  | cons b t ih => exact quotes_escape b ih

theorem numberTail_integer {tail rest : Text} (htail : ∀ b ∈ tail, Byte.isDigit b = true)
    (hstop : rest.Stops Byte.isDigit) (hwhole : ¬ BeginsFraction rest) :
    numberTail (tail ++ rest) = tail := by
  unfold numberTail
  rw [Text.dropWhile_append_of_stops htail hstop, Text.takeWhile_append_of_stops htail hstop]
  split
  . next dot d after =>
    apply if_neg
    intro h
    rw [Bool.and_eq_true, beq_iff_eq] at h
    exact hwhole ⟨d, after, by rw [h.1], h.2⟩
  . rfl

theorem numberTail_fraction {tail places rest : Text} (htail : ∀ b ∈ tail, Byte.isDigit b = true)
    (hplaces : IsDigits places) (hstop : rest.Stops Byte.isDigit) :
    numberTail (tail ++ byte '.' :: places ++ rest) = tail ++ byte '.' :: places := by
  obtain ⟨d, more, rfl⟩ := List.exists_cons_of_ne_nil hplaces.1
  obtain ⟨hd, hmore⟩ := List.forall_mem_cons.mp hplaces.2
  have hdot : Text.Stops Byte.isDigit (byte '.' :: d :: (more ++ rest)) := rfl
  have hsource : tail ++ byte '.' :: d :: more ++ rest =
      tail ++ byte '.' :: d :: (more ++ rest) := by
    simp
  unfold numberTail
  rw [hsource, Text.dropWhile_append_of_stops htail hdot]
  simp only [hd, beq_self_eq_true, Bool.and_self, ↓reduceIte]
  rw [Text.takeWhile_append_of_stops htail hdot, Text.takeWhile_append_of_stops hmore hstop]

/-- A bare number is read as far as it goes. -/
theorem numberTail_of_isBareNumber {t rest : Text} (ht : isBareNumber t = true)
    (hstop : rest.Stops fun b => Byte.isWordPart b || b == byte '.') :
    ∃ d tail, t = d :: tail ∧ Byte.isDigit d = true ∧ numberTail (tail ++ rest) = tail := by
  have hdigit : rest.Stops Byte.isDigit := by
    cases rest with
    | nil => trivial
    | cons b rest =>
      have hb : Byte.isWordPart b = false := (Bool.or_eq_false_iff.mp hstop).1
      simp only [Byte.isWordPart, Bool.or_eq_false_iff] at hb
      exact hb.2
  have hwhole : ¬ BeginsFraction rest := by
    rintro ⟨d, after, rfl, _⟩
    cases hstop
  cases isBareNumber_iff.mp ht with
  | inl hdigits =>
    obtain ⟨d, tail, rfl⟩ := List.exists_cons_of_ne_nil hdigits.1
    obtain ⟨hd, htail⟩ := isDigits_cons.mp hdigits
    exact ⟨d, tail, rfl, hd, numberTail_integer htail hdigit hwhole⟩
  | inr h =>
    obtain ⟨whole, places, rfl, hdigits, hplaces⟩ := h
    obtain ⟨d, tail, rfl⟩ := List.exists_cons_of_ne_nil hdigits.1
    obtain ⟨hd, htail⟩ := isDigits_cons.mp hdigits
    exact ⟨d, _, rfl, hd, numberTail_fraction htail hplaces hdigit⟩

/-- The digits behind a digit are those of a number, and the number stops where they do. -/
theorem numberTail_spells (before : Text) {d : UInt8} (hd : Byte.isDigit d = true) (rest : Text) :
    ∃ after, rest = numberTail rest ++ after ∧
      Spells before after .number (d :: numberTail rest) (d :: numberTail rest) := by
  have hsplit := (List.takeWhile_append_dropWhile (p := Byte.isDigit) (l := rest)).symm
  have hstop := Text.stops_dropWhile Byte.isDigit rest
  have hwhole : IsDigits (d :: rest.takeWhile Byte.isDigit) :=
    isDigits_cons.mpr ⟨hd, fun b hb => List.mem_takeWhile_imp hb⟩
  unfold numberTail
  split
  . next dot e after hdrop =>
    split
    . next hdot =>
      rw [Bool.and_eq_true, beq_iff_eq] at hdot
      obtain ⟨rfl, he⟩ := hdot
      refine ⟨after.dropWhile Byte.isDigit, ?_, ?_⟩
      . conv => lhs; rw [hsplit, hdrop]
        simp
      . have hplaces : IsDigits (e :: after.takeWhile Byte.isDigit) :=
          isDigits_cons.mpr ⟨he, fun b hb => List.mem_takeWhile_imp hb⟩
        exact .fraction hwhole hplaces (Text.stops_dropWhile _ _)
    . next hdot =>
      refine ⟨_, hsplit, .integer hwhole hstop ?_⟩
      rintro ⟨e', after', hfraction, he'⟩
      rw [hdrop] at hfraction
      cases hfraction
      simp [he'] at hdot
  . next hshort =>
    refine ⟨_, hsplit, .integer hwhole hstop ?_⟩
    rintro ⟨e, after, hfraction, _⟩
    exact hshort _ _ _ hfraction

theorem wordKind_model {word : Text} (h : word.lower = ascii "model") :
    wordKind word = .model := by
  simp [wordKind, isModelKeyword, h]

theorem wordKind_type (type : ScalarType) : wordKind type.name = .type := by
  cases type
  all_goals decide

theorem wordKind_identifier {word : Text} (h : IsName word) : wordKind word = .identifier := by
  have hreserved := h.2
  simp only [isReservedWord, Bool.or_eq_false_iff] at hreserved
  simp [wordKind, hreserved]

theorem wordKind_spells (before : Text) {after word : Text} (hword : IsWord word)
    (hstop : after.Stops Byte.isWordPart) : Spells before after (wordKind word) word word := by
  unfold wordKind
  split
  . next hmodel => exact .model hword (beq_iff_eq.mp hmodel) hstop
  . split
    . next hscalar =>
      obtain ⟨type, rfl⟩ := exists_name_of_isScalarType hscalar
      exact .type type hstop
    . next hmodel hscalar =>
      refine .identifier ⟨hword, ?_⟩ hstop
      simp only [isReservedWord, Bool.or_eq_false_iff]
      exact ⟨Bool.not_eq_true _ ▸ hmodel, Bool.not_eq_true _ ▸ hscalar⟩

/-- A piece is one that the lexical grammar allows between what stands before and behind it. -/
inductive Fits (before : Text) : Piece → Prop
  | separator {b : UInt8} {rest : Text} (hb : IsSeparator b) : Fits before (.gap [b] rest)
  | comment {body rest : Text} (hbody : byte '\n' ∉ body) (hend : EndsLine rest) :
    Fits before (.gap (byte '#' :: body) rest)
  | lexeme {kind : TokenKind} {text source rest : Text} (h : Spells before rest kind text source) :
    Fits before (.lexeme kind text source rest)

theorem fits_of_first {before : Text} {lineStart : Bool} {b : UInt8} {rest : Text} {piece : Piece}
    (hstart : lineStart = true → AtLineStart before) (h : first lineStart b rest = .ok piece) :
    b :: rest = piece.source ++ piece.rest ∧ Fits before piece := by
  have hnewline : byte '\n' ∉ rest.takeWhile (· != byte '\n') := by
    intro hmem
    simpa using List.mem_takeWhile_imp hmem
  unfold first at h
  split at h
  . next hb =>
    cases h
    refine ⟨rfl, .separator ?_⟩
    simpa [IsSeparator, IsBlank, or_assoc] using hb
  split at h
  . next hb =>
    cases h
    rw [beq_iff_eq.mp hb]
    exact ⟨by simp [gap], .comment hnewline (Text.stops_dropWhile _ _)⟩
  split at h
  . next hb =>
    rw [beq_iff_eq.mp hb] at h ⊢
    split at h
    . cases h
    . next hname =>
      cases h
      refine ⟨by simp [lexeme], .lexeme (.decorator ⟨hname, ?_⟩ (Text.stops_dropWhile _ _))⟩
      intro c hc
      exact List.mem_takeWhile_imp hc
  split at h
  . next hb =>
    split at h
    . cases h
    . next hbody =>
      cases h
      obtain ⟨body, rfl, rfl, hvalue⟩ := quotes_of_stringBody? hbody
      exact ⟨by simp [lexeme], .lexeme (.string (by simpa using hb) hvalue)⟩
  split at h
  . next hkind =>
    cases h
    exact ⟨rfl, .lexeme (.punctuation (punctuation?_eq_some_iff.mp hkind))⟩
  split at h
  . next hb =>
    cases h
    rw [Bool.and_eq_true, beq_iff_eq] at hb
    rw [hb.1]
    refine ⟨by simp [lexeme], .lexeme (.rawSql (hstart hb.2) hnewline ?_ (trims_trim _))⟩
    exact Text.stops_dropWhile _ _
  split at h
  . next hb =>
    cases h
    refine ⟨by simp [lexeme], .lexeme (wordKind_spells before ⟨hb, ?_⟩ (Text.stops_dropWhile _ _))⟩
    intro c hc
    exact List.mem_takeWhile_imp hc
  split at h
  . next hd =>
    cases h
    obtain ⟨after, hrest, hspells⟩ := numberTail_spells before hd rest
    have hdrop : rest.drop (numberTail rest).length = after := by
      conv => lhs; arg 2; rw [hrest]
      exact List.drop_left
    rw [hdrop]
    exact ⟨congrArg (b :: ·) hrest, .lexeme hspells⟩
  . cases h

theorem first_of_fits {before : Text} {lineStart : Bool} {b : UInt8} {rest : Text} {piece : Piece}
    (hstart : AtLineStart before → lineStart = true) (h : Fits before piece)
    (hsource : b :: rest = piece.source ++ piece.rest) : first lineStart b rest = .ok piece := by
  cases h with
  | separator hb =>
    cases hsource
    exact first_separator hb lineStart _
  | comment hbody hend =>
    cases hsource
    exact first_comment hbody hend lineStart
  | lexeme h =>
    cases h with
    | punctuation h =>
      cases hsource
      exact first_punctuation (punctuation?_eq_some_iff.mpr h) lineStart _
    | decorator hname hstop =>
      cases hsource
      exact first_decorator hname hstop lineStart
    | model hword hmodel hstop =>
      rw [← wordKind_model hmodel]
      exact first_word hword hstop lineStart hsource
    | type type hstop =>
      rw [← wordKind_type type]
      exact first_word (isWord_name type) hstop lineStart hsource
    | identifier hname hstop =>
      rw [← wordKind_identifier hname]
      exact first_word hname.1 hstop lineStart hsource
    | integer hdigits hstop hwhole =>
      obtain ⟨d, tail, rfl⟩ := List.exists_cons_of_ne_nil hdigits.1
      obtain ⟨hd, htail⟩ := isDigits_cons.mp hdigits
      cases hsource
      exact first_number hd (numberTail_integer htail hstop hwhole) lineStart
    | fraction hwhole hplaces hstop =>
      obtain ⟨d, tail, rfl⟩ := List.exists_cons_of_ne_nil hwhole.1
      obtain ⟨hd, htail⟩ := isDigits_cons.mp hwhole
      cases hsource
      exact first_number hd (numberTail_fraction htail hplaces hstop) lineStart
    | @string quote source value hquote h =>
      have hslash : quote ≠ byte '\\' := by
        obtain rfl | rfl := hquote
        all_goals decide
      simp only [Piece.lexeme, List.cons_append, List.append_assoc, List.nil_append] at hsource
      cases hsource
      exact first_string hquote (stringBody?_of_quotes hslash h _) lineStart
    | rawSql hbefore hline hend htext =>
      cases hsource
      rw [hstart hbefore, ← trim_of_trims htext]
      exact first_rawSql hline hend

theorem Fits.valid {before : Text} {piece : Piece} (h : Fits before piece) :
    ∀ x ∈ piece.token?, Lexeme.Valid x := by
  cases h with
  | separator => nofun
  | comment => nofun
  | lexeme h =>
    rintro _ ⟨⟩
    exact h.valid

theorem Fits.source_ne_nil {before : Text} {piece : Piece} (h : Fits before piece) :
    piece.source ≠ [] := by
  cases h with
  | separator => nofun
  | comment => nofun
  | lexeme h => exact h.source_ne_nil

theorem Fits.rest_length_lt {before source : Text} {piece : Piece} (h : Fits before piece)
    (hsource : source = piece.source ++ piece.rest) : piece.rest.length < source.length := by
  have hpositive := List.length_pos_of_ne_nil h.source_ne_nil
  rw [hsource, List.length_append]
  omega

end Piece

theorem head_of_isBareNumber {t : Text} (h : isBareNumber t = true) :
    ∃ d tail, t = d :: tail ∧ Byte.isDigit d = true := by
  have hend : Text.Stops (fun b => Byte.isWordPart b || b == byte '.') [] := trivial
  obtain ⟨d, tail, ht, hd, _⟩ := Piece.numberTail_of_isBareNumber h hend
  exact ⟨d, tail, ht, hd⟩

def Piece.tokens (piece : Piece) (place : Position) : List Token :=
  piece.token?.toList.map fun x => ⟨x.1, x.2, place⟩

theorem Piece.map_lexeme_tokens (piece : Piece) (place : Position) :
    (piece.tokens place).map Token.lexeme = piece.token?.toList := by
  unfold Piece.tokens
  cases piece.token? with
  | none => rfl
  | some x => rfl

theorem tokenize.go_nil (fuel : Nat) (cursor : Cursor) :
    tokenize.go fuel cursor [] = .ok [⟨.endOfInput, [], cursor.position⟩] := by
  cases fuel with
  | zero => rfl
  | succ fuel => rfl

/-- The lexer takes one piece and goes on behind it with fuel enough for the rest. -/
theorem tokenize.go_of_first {fuel : Nat} {cursor : Cursor} {b : UInt8} {tail : Text}
    {piece : Piece} (hfuel : (b :: tail).length ≤ fuel)
    (hfirst : Piece.first cursor.lineStart b tail = .ok piece) :
    ∃ fuel', piece.rest.length ≤ fuel' ∧
      tokenize.go fuel cursor (b :: tail) =
        (tokenize.go fuel' (cursor.after piece.source) piece.rest).map
          (piece.tokens cursor.position ++ ·) := by
  obtain ⟨hsource, hfits⟩ := Piece.fits_of_first (fun _ => atLineStart_nil) hfirst
  cases fuel with
  | zero => simp at hfuel
  | succ fuel =>
    refine ⟨fuel, ?_, ?_⟩
    -- A piece is not empty, so one unit of fuel pays for it.
    . have hlength := hfits.rest_length_lt hsource
      omega
    . conv => lhs; unfold tokenize.go
      simp only [hfirst, Piece.tokens]
      cases hgo : tokenize.go fuel (cursor.after piece.source) piece.rest with
      | error e =>
        cases piece.token? with
        | none => rfl
        | some x => rfl
      | ok tokens =>
        cases piece.token? with
        | none => rfl
        | some x => rfl

theorem tokenize.go_valid {fuel : Nat} {cursor : Cursor} {source : Text} {tokens : List Token}
    (h : tokenize.go fuel cursor source = .ok tokens) :
    ∃ body finish, tokens = body ++ [⟨.endOfInput, [], finish⟩] ∧
      ∀ t ∈ body, Lexeme.Valid t.lexeme := by
  fun_induction tokenize.go fuel cursor source generalizing tokens with
  | case1 => cases h
  | case2 fuel cursor b rest piece hfirst htoken ih => exact ih h
  | case3 => cases h
  | case4 fuel cursor b rest piece hfirst kind text htoken tail hgo ih =>
    cases h
    obtain ⟨body, finish, htail, hvalid⟩ := ih hgo
    refine ⟨⟨kind, text, cursor.position⟩ :: body, finish, by rw [htail]; rfl, ?_⟩
    intro t ht
    cases ht with
    | head => exact (Piece.fits_of_first (fun _ => atLineStart_nil) hfirst).2.valid _ htoken
    | tail _ ht => exact hvalid t ht
  | case5 fuel cursor source =>
    cases h
    exact ⟨[], cursor.position, rfl, by simp⟩

def lineStartAfter (lineStart : Bool) (t : Text) : Bool :=
  t.foldl (fun atStart b => b == byte '\n' || (atStart && Cursor.isBlank b)) lineStart

theorem Cursor.after_lineStart (c : Cursor) (t : Text) :
    (c.after t).lineStart = lineStartAfter c.lineStart t := by
  induction t generalizing c with
  | nil => rfl
  | cons b rest ih => exact ih (c.advance b)

/-- A source reads as lexemes and then ends, whatever the place of its first byte is. -/
def Reads (lineStart : Bool) (source : Text) (lexemes : List Lexeme) : Prop :=
  ∀ (fuel : Nat) (cursor : Cursor), source.length ≤ fuel → cursor.lineStart = lineStart →
    ∃ tokens finish,
      tokenize.go fuel cursor source = .ok (tokens ++ [⟨.endOfInput, [], finish⟩]) ∧
        tokens.map Token.lexeme = lexemes

namespace Reads

variable {lineStart : Bool} {rest : Text} {lexemes : List Lexeme}

theorem nil (lineStart : Bool) : Reads lineStart [] [] := by
  intro fuel cursor _ _
  exact ⟨[], cursor.position, tokenize.go_nil fuel cursor, rfl⟩

theorem of_first {b : UInt8} {tail : Text} {piece : Piece}
    (hfirst : Piece.first lineStart b tail = .ok piece)
    (hrest : Reads (lineStartAfter lineStart piece.source) piece.rest lexemes) :
    Reads lineStart (b :: tail) (piece.token?.toList ++ lexemes) := by
  intro fuel cursor hfuel hcursor
  obtain ⟨fuel', hrestFuel, hgo⟩ := tokenize.go_of_first hfuel (hcursor ▸ hfirst)
  have hstart : (cursor.after piece.source).lineStart =
      lineStartAfter lineStart piece.source := by
    rw [Cursor.after_lineStart, hcursor]
  obtain ⟨tokens, finish, hrestGo, hmap⟩ := hrest fuel' _ hrestFuel hstart
  refine ⟨piece.tokens cursor.position ++ tokens, finish, ?_, ?_⟩
  . rw [hgo, hrestGo, List.append_assoc]
    rfl
  . rw [List.map_append, Piece.map_lexeme_tokens, hmap]

theorem space (h : Reads lineStart rest lexemes) : Reads lineStart (byte ' ' :: rest) lexemes := by
  have hfirst : Piece.first lineStart (byte ' ') rest = .ok (.gap [byte ' '] rest) := rfl
  apply of_first hfirst
  have hstart : lineStartAfter lineStart [byte ' '] = lineStart := by
    simp [lineStartAfter, Cursor.isBlank, show (byte ' ' == byte '\n') = false from rfl]
  change Reads (lineStartAfter lineStart [byte ' ']) rest lexemes
  rw [hstart]
  exact h

theorem newline (h : Reads true rest lexemes) : Reads lineStart (byte '\n' :: rest) lexemes := by
  have hfirst : Piece.first lineStart (byte '\n') rest = .ok (.gap [byte '\n'] rest) := rfl
  apply of_first hfirst
  simpa [lineStartAfter, Piece.gap] using h

theorem punctuation {b : UInt8} {kind : TokenKind} (hkind : Piece.punctuation? b = some kind)
    (h : ∀ lineStart, Reads lineStart rest lexemes) :
    Reads lineStart (b :: rest) ((kind, [b]) :: lexemes) :=
  of_first (Piece.first_punctuation hkind lineStart rest) (h _)

theorem word {w : Text} (hw : IsWord w) (hstop : rest.Stops Byte.isWordPart)
    (h : ∀ lineStart, Reads lineStart rest lexemes) :
    Reads lineStart (w ++ rest) ((Piece.wordKind w, w) :: lexemes) := by
  cases w with
  | nil => cases hw
  | cons b tail => exact of_first (Piece.first_word hw hstop lineStart rfl) (h _)

theorem name {w : Text} (hw : IsName w) (hstop : rest.Stops Byte.isWordPart)
    (h : ∀ lineStart, Reads lineStart rest lexemes) :
    Reads lineStart (w ++ rest) ((.identifier, w) :: lexemes) :=
  Piece.wordKind_identifier hw ▸ word hw.1 hstop h

theorem type {w : Text} (hw : isScalarType w = true) (hstop : rest.Stops Byte.isWordPart)
    (h : ∀ lineStart, Reads lineStart rest lexemes) :
    Reads lineStart (w ++ rest) ((.type, w) :: lexemes) := by
  obtain ⟨type, rfl⟩ := exists_name_of_isScalarType hw
  exact Piece.wordKind_type type ▸ word (isWord_name type) hstop h

theorem decorator {w : Text} (hw : IsDecoratorName w) (hstop : rest.Stops Byte.isWordPart)
    (h : ∀ lineStart, Reads lineStart rest lexemes) :
    Reads lineStart (byte '@' :: (w ++ rest)) ((.decorator, w) :: lexemes) :=
  of_first (Piece.first_decorator hw hstop lineStart) (h _)

theorem quoted (t : Text) (h : ∀ lineStart, Reads lineStart rest lexemes) :
    Reads lineStart (Printer.quote t ++ rest) ((.string, t) :: lexemes) := by
  have hsource : Printer.quote t ++ rest =
      byte '"' :: (t.flatMap Printer.escape ++ byte '"' :: rest) := by
    simp [Printer.quote, Text.inQuotes]
  have hbody := Piece.stringBody?_of_quotes (by decide) (Piece.quotes_flatMap_escape t) rest
  rw [hsource]
  exact of_first (Piece.first_string (.inr rfl) hbody lineStart) (h _)

theorem number {t : Text} (ht : isBareNumber t = true)
    (hstop : rest.Stops fun b => Byte.isWordPart b || b == byte '.')
    (h : ∀ lineStart, Reads lineStart rest lexemes) :
    Reads lineStart (t ++ rest) ((.number, t) :: lexemes) := by
  obtain ⟨d, tail, rfl, hd, htail⟩ := Piece.numberTail_of_isBareNumber ht hstop
  exact of_first (Piece.first_number hd htail lineStart) (h _)

theorem rawSql {sql : Text} (hsql : IsTrimmedLine sql) (h : Reads true rest lexemes) :
    Reads true (Printer.rawSql sql ++ rest) ((.rawSql, sql) :: lexemes) := by
  have hline : byte '\n' ∉ byte ' ' :: sql := by
    intro hmem
    cases hmem with
    | tail _ hmem => exact hsql.1 hmem
  have hstop : Text.Stops (· != byte '\n') (byte '\n' :: rest) := by
    simp [Text.Stops]
  have hfirst := Piece.first_rawSql hline hstop
  have htrims : Trims (byte ' ' :: sql) sql :=
    ⟨⟨[byte ' '], [], by simp, List.forall_mem_singleton.mpr rfl, List.forall_mem_nil _⟩,
      hsql.2.1, hsql.2.2⟩
  rw [trim_of_trims htrims] at hfirst
  have hsource : Printer.rawSql sql ++ rest =
      byte '>' :: (byte ' ' :: sql ++ byte '\n' :: rest) := by
    simp [Printer.rawSql, show ascii "> " = [byte '>', byte ' '] from rfl]
  rw [hsource]
  exact of_first hfirst (newline h)

end Reads

end SchemaMigration.Schema
