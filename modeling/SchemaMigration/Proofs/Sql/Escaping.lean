import SchemaMigration.Proofs.Sql.Quoting

/-!
This module contains how MySQL reads the string literals in the statements that create tables. A
backslash escapes the byte behind it there, so that a literal ends at its own closing quote and has
the value that was written exactly if there is no backslash in this value.
-/

namespace SchemaMigration.Sql

def doubled (quote : UInt8) (t : Text) : Text :=
  t.flatMap fun b => if b == quote then [b, b] else [b]

theorem enclose_eq (quote : UInt8) (t : Text) :
    enclose quote t = quote :: doubled quote t ++ [quote] := rfl

theorem doubled_concat (quote b : UInt8) (t : Text) :
    doubled quote (t ++ [b]) = doubled quote t ++ if b == quote then [b, b] else [b] := by
  rw [doubled, List.flatMap_append, List.flatMap_singleton]
  rfl

theorem length_doubled (quote : UInt8) (t : Text) :
    (doubled quote t).length = t.length + t.count quote := by
  induction t with
  | nil => rfl
  | cons b t ih =>
    have hcons : doubled quote (b :: t) =
        (if b == quote then [b, b] else [b]) ++ doubled quote t := rfl
    rw [hcons, List.length_append, ih, List.count_cons, List.length_cons]
    split
    . simp only [List.length_cons, List.length_nil]
      omega
    . simp only [List.length_cons, List.length_nil]
      omega

def Token.source (quote : UInt8) : Token → Text
  | quoted kind content => enclose (Scanner.quoteByte quote kind) content
  | bare b => [b]

def Token.sources (quote : UInt8) (tokens : List Token) : Text := tokens.flatMap (source quote)

theorem Token.sources_append (quote : UInt8) (tokens tokens' : List Token) :
    sources quote (tokens ++ tokens') = sources quote tokens ++ sources quote tokens' :=
  List.flatMap_append

theorem Token.sources_cons (quote : UInt8) (token : Token) (tokens : List Token) :
    sources quote (token :: tokens) = source quote token ++ sources quote tokens := rfl

theorem Token.sources_singleton (quote : UInt8) (token : Token) :
    sources quote [token] = source quote token := List.append_nil _

namespace Scanner

variable {quote : UInt8} {t : Text} {tokens tokens' : List Token}

def Mode.source (quote : UInt8) : Mode → Text
  | outside => []
  | inside kind content => quoteByte quote kind :: doubled (quoteByte quote kind) content
  | closing kind content => enclose (quoteByte quote kind) content

/-- Behind the quote byte at the end of each quoted text stands another byte. -/
def Parted (quote : UInt8) (behind : Text) : List Token → Prop
  | [] => True
  | .bare _ :: rest => Parted quote behind rest
  | .quoted kind _ :: rest =>
    (∃ b ∈ (Token.sources quote rest ++ behind).head?, b ≠ quoteByte quote kind) ∧
      Parted quote behind rest

theorem Parted.append_behind {behind : Text} (h : Parted quote behind tokens) (t : Text) :
    Parted quote (behind ++ t) tokens := by
  induction tokens with
  | nil => trivial
  | cons token tokens ih =>
    cases token with
    | bare b => exact ih h
    | quoted kind content =>
      obtain ⟨⟨b, hb, hne⟩, hrest⟩ := h
      refine ⟨⟨b, ?_, hne⟩, ih hrest⟩
      rw [← List.append_assoc]
      exact List.mem_head?_append_of_mem_head? hb

theorem parted_append {behind : Text} :
    Parted quote behind (tokens ++ tokens') ↔
      Parted quote (Token.sources quote tokens' ++ behind) tokens ∧
        Parted quote behind tokens' := by
  induction tokens with
  | nil => exact (and_iff_right trivial).symm
  | cons token tokens ih =>
    cases token with
    | bare b => exact ih
    | quoted kind content =>
      simp only [List.cons_append, Parted, ih, Token.sources_append, List.append_assoc, and_assoc]

theorem Parted.head?_ne {behind content : Text} {before after : List Token} {kind : Quoted}
    (h : Parted quote behind (before ++ .quoted kind content :: after)) :
    (Token.sources quote after ++ behind).head? ≠ some (quoteByte quote kind) := by
  obtain ⟨_, ⟨b, hb, hne⟩, _⟩ := parted_append.mp h
  rw [hb]
  exact fun heq => hne (Option.some.inj heq)

structure Behind (quote : UInt8) (t : Text) (s : State) : Prop where
  source_eq : Token.sources quote s.tokens ++ s.mode.source quote = t
  parted : Parted quote (s.mode.source quote) s.tokens

theorem quoteByte_of_opens? {b : UInt8} {kind : Quoted} (h : opens? quote b = some kind) :
    quoteByte quote kind = b := by
  unfold opens? at h
  split at h
  . next hb =>
    cases h
    exact (beq_iff_eq.mp hb).symm
  . split at h
    . next hb =>
      cases h
      exact (beq_iff_eq.mp hb).symm
    . cases h

theorem behind_readBare {b : UInt8} (h : Parted quote [b] tokens) :
    Behind quote (Token.sources quote tokens ++ [b]) (readBare quote tokens b) := by
  unfold readBare
  split
  . next kind hkind =>
    have hmode : (Mode.inside kind []).source quote = [b] := by
      rw [Mode.source, quoteByte_of_opens? hkind]
      rfl
    exact ⟨by rw [hmode], by rw [hmode]; exact h⟩
  . refine ⟨?_, parted_append.mpr ⟨h, trivial⟩⟩
    rw [Token.sources_append]
    exact List.append_nil _

/-- The step lemma: a scanner that reads one more byte. -/
theorem Behind.step {s : State} (h : Behind quote t s) (b : UInt8) :
    Behind quote (t ++ [b]) (step quote s b) := by
  obtain ⟨tokens, mode⟩ := s
  obtain ⟨rfl, hparted⟩ := h
  have hmore : Parted quote (mode.source quote ++ [b]) tokens := hparted.append_behind [b]
  rw [List.append_assoc]
  cases mode with
  | outside => exact behind_readBare hmore
  | inside kind content =>
    simp only [Scanner.step]
    split
    . next hb =>
      rw [beq_iff_eq.mp hb] at hmore ⊢
      exact ⟨rfl, hmore⟩
    . next hb =>
      have hmode : (Mode.inside kind (content ++ [b])).source quote =
          (Mode.inside kind content).source quote ++ [b] := by
        rw [Mode.source, doubled_concat, if_neg hb]
        rfl
      exact ⟨by rw [hmode], by rw [hmode]; exact hmore⟩
  | closing kind content =>
    simp only [Scanner.step]
    split
    . next hb =>
      -- The second of two quote bytes: both together are one byte of the content.
      have hmode : (Mode.inside kind (content ++ [b])).source quote =
          (Mode.closing kind content).source quote ++ [b] := by
        rw [Mode.source, doubled_concat, if_pos hb, Mode.source, enclose_eq, beq_iff_eq.mp hb]
        simp
      exact ⟨by rw [hmode], by rw [hmode]; exact hmore⟩
    . next hb =>
      have hlast : Parted quote [b] [.quoted kind content] :=
        ⟨⟨b, rfl, fun heq => hb (beq_iff_eq.mpr heq)⟩, trivial⟩
      have h : Parted quote [b] (tokens ++ [.quoted kind content]) := by
        rw [parted_append, Token.sources_singleton]
        exact ⟨hmore, hlast⟩
      have hbehind := behind_readBare h
      rw [Token.sources_append, Token.sources_singleton, List.append_assoc] at hbehind
      exact hbehind

theorem behind_foldl {s : State} (h : Behind quote t s) (u : Text) :
    Behind quote (t ++ u) (u.foldl (step quote) s) := by
  induction u generalizing t s with
  | nil =>
    rw [List.append_nil]
    exact h
  | cons b u ih =>
    rw [List.append_cons]
    exact ih (h.step b)

/-- A quoted text in a statement, with what stands before and behind it. -/
theorem scan_eq_append {before after : List Token} {kind : Quoted} {content : Text}
    (h : scan quote t = some (before ++ .quoted kind content :: after)) :
    t = Token.sources quote before ++
        (enclose (quoteByte quote kind) content ++ Token.sources quote after) ∧
      (Token.sources quote after).head? ≠ some (quoteByte quote kind) := by
  have hstart : Behind quote [] ⟨[], .outside⟩ := ⟨rfl, trivial⟩
  have hbehind := behind_foldl hstart t
  unfold scan at h
  rw [List.nil_append] at hbehind
  generalize t.foldl (step quote) ⟨[], .outside⟩ = s at h hbehind
  obtain ⟨tokens, mode⟩ := s
  obtain ⟨hsource, hparted⟩ := hbehind
  cases mode with
  | outside =>
    replace h : tokens = before ++ .quoted kind content :: after := Option.some.inj h
    subst h
    rw [← hsource, Token.sources_append, Token.sources_cons]
    have hhead := hparted.head?_ne
    simp only [Mode.source, List.append_nil] at hhead ⊢
    exact ⟨rfl, hhead⟩
  | inside kind' content' => cases h
  | closing kind' content' =>
    replace h : tokens ++ [.quoted kind' content'] = before ++ .quoted kind content :: after :=
      Option.some.inj h
    obtain ⟨rfl, rfl, heq⟩ | ⟨newer, rfl, rfl⟩ := append_singleton_eq_iff.mp h
    . cases heq
      refine ⟨?_, nofun⟩
      rw [← hsource]
      exact congrArg _ (List.append_nil _).symm
    . have hlast : Token.sources quote (newer ++ [.quoted kind' content']) =
          Token.sources quote newer ++ (Mode.closing kind' content').source quote := by
        rw [Token.sources_append, Token.sources_singleton]
        rfl
      rw [hlast, ← hsource, Token.sources_append, Token.sources_cons]
      refine ⟨?_, hparted.head?_ne⟩
      simp only [List.append_assoc, Token.source]

end Scanner

namespace Mysql

/--
Reads a string literal behind its opening quote: its value, and what stands behind its closing
quote. A doubled quote is one quote, and a backslash escapes the byte behind it; which byte is meant
by an escaped one is a parameter. There is none if the literal has no end.
-/
def readBody (escaped : UInt8 → UInt8) : Text → Option (Text × Text)
  | [] => none
  | [b] => if b == byte '\'' then some ([], []) else none
  | b :: c :: rest =>
    if b == byte '\'' then
      if c == byte '\'' then (readBody escaped rest).map fun (value, after) => (b :: value, after)
      else some ([], c :: rest)
    else if b == byte '\\' then
      (readBody escaped rest).map fun (value, after) => (escaped c :: value, after)
    else
      (readBody escaped (c :: rest)).map fun (value, after) => (b :: value, after)

def readLiteral (escaped : UInt8 → UInt8) : Text → Option (Text × Text)
  | [] => none
  | b :: rest => if b == byte '\'' then readBody escaped rest else none

variable {escaped : UInt8 → UInt8} {t v value rest : Text}

/-- Without backslashes a literal is read as it was written. -/
theorem readBody_doubled (hv : byte '\\' ∉ v) (hrest : rest.head? ≠ some (byte '\'')) :
    readBody escaped (doubled (byte '\'') v ++ byte '\'' :: rest) = some (v, rest) := by
  induction v with
  | nil =>
    cases rest with
    | nil => rfl
    | cons c rest =>
      have hc : (c == byte '\'') = false := by
        rw [beq_eq_false_iff_ne]
        exact fun heq => hrest (congrArg some heq)
      simp [doubled, readBody, hc]
  | cons b v ih =>
    rw [List.mem_cons, not_or] at hv
    have hslash : (b == byte '\\') = false := beq_eq_false_iff_ne.mpr (Ne.symm hv.1)
    have hcons : doubled (byte '\'') (b :: v) =
        (if b == byte '\'' then [b, b] else [b]) ++ doubled (byte '\'') v := rfl
    rw [hcons, List.append_assoc]
    split
    . next hb =>
      simp only [List.cons_append, List.nil_append, readBody, hb, if_true, ih hv.2, Option.map_some]
    . next hb =>
      obtain ⟨c, more, hmore⟩ := List.exists_cons_of_ne_nil
        (List.append_ne_nil_of_right_ne_nil (doubled (byte '\'') v)
          (List.cons_ne_nil (byte '\'') rest))
      have hread := ih hv.2
      rw [hmore] at hread ⊢
      simp [readBody, hb, hslash, hread]

/--
A literal takes two bytes for each quote and each backslash of its value, since there is no other
way to write them.
-/
theorem length_of_readBody (h : readBody escaped t = some (value, rest)) :
    ∃ body, t = body ++ byte '\'' :: rest ∧
      value.length + value.count (byte '\'') + value.count (byte '\\') ≤ body.length := by
  fun_induction readBody escaped t generalizing value rest with
  | case1 => cases h
  | case2 b hb =>
    cases h
    exact ⟨[], by rw [beq_iff_eq.mp hb]; rfl, Nat.le_refl 0⟩
  | case3 => cases h
  | case4 b c tail hb hc ih =>
    obtain ⟨⟨more, after⟩, hread, heq⟩ := Option.map_eq_some_iff.mp h
    cases heq
    obtain ⟨body, rfl, hle⟩ := ih hread
    refine ⟨b :: c :: body, rfl, ?_⟩
    have hne : (b == byte '\\') = false := by rw [beq_iff_eq.mp hb]; decide
    simp only [List.length_cons, List.count_cons, hb, hne]
    simp only [if_true, Bool.false_eq_true, if_false]
    omega
  | case5 b c tail hb hc =>
    cases h
    exact ⟨[], by rw [beq_iff_eq.mp hb]; rfl, Nat.le_refl 0⟩
  | case6 b c tail hb hslash ih =>
    obtain ⟨⟨more, after⟩, hread, heq⟩ := Option.map_eq_some_iff.mp h
    cases heq
    obtain ⟨body, rfl, hle⟩ := ih hread
    refine ⟨b :: c :: body, rfl, ?_⟩
    have hne : byte '\'' ≠ byte '\\' := by decide
    simp only [List.length_cons, List.count_cons]
    grind
  | case7 b c tail hb hslash ih =>
    obtain ⟨⟨more, after⟩, hread, heq⟩ := Option.map_eq_some_iff.mp h
    cases heq
    obtain ⟨body, hbody, hle⟩ := ih hread
    refine ⟨b :: body, by rw [hbody]; rfl, ?_⟩
    simp only [List.length_cons, List.count_cons, hb, hslash]
    simp only [Bool.false_eq_true, if_false]
    omega

/-- A value is read back from its literal exactly if it has no backslash. -/
theorem readLiteral_quoteLiteral_iff (hrest : rest.head? ≠ some (byte '\'')) :
    readLiteral escaped (quoteLiteral v ++ rest) = some (v, rest) ↔ byte '\\' ∉ v := by
  have hread : readLiteral escaped (quoteLiteral v ++ rest) =
      readBody escaped (doubled (byte '\'') v ++ byte '\'' :: rest) := by
    rw [quoteLiteral, enclose_eq, List.append_assoc]
    rfl
  rw [hread]
  constructor
  . intro h
    obtain ⟨body, hbody, hle⟩ := length_of_readBody h
    have hlength := length_doubled (byte '\'') v
    rw [List.append_cancel_right hbody] at hlength
    rw [← List.count_eq_zero]
    omega
  . intro hv
    exact readBody_doubled hv hrest

/--
In the statements for MySQL the literals are the members of enumerations and the default values that
are neither keywords nor numbers. Each stands in its statement as it was quoted, and is read from
there with its own end and value exactly if it has no backslash.
-/
theorem up_readLiteral_iff (escaped : UInt8 → UInt8) {s : Schema} {statements : List Text}
    (h : up .mysql s = .ok statements) :
    ∃ tables, statements = tables ++ s.rawSql ∧
      List.Forall₂ (fun m sql => ∃ tokens,
        Scanner.scan Dialect.mysql.quoteByte sql = some tokens ∧
        Token.contents .literal tokens = tableLiterals .mysql m ∧
        ∀ before v after, tokens = before ++ .quoted .literal v :: after →
          let behind := Token.sources Dialect.mysql.quoteByte after
          sql = Token.sources Dialect.mysql.quoteByte before ++ (quoteLiteral v ++ behind) ∧
            (readLiteral escaped (quoteLiteral v ++ behind) = some (v, behind) ↔
              byte '\\' ∉ v)) s.models tables := by
  unfold up at h
  obtain ⟨tables, htables, h⟩ := bind_eq_ok.mp h
  cases h
  refine ⟨tables, rfl, ?_⟩
  apply (forall₂_of_mapM_ok htables).imp
  intro m sql hcreate
  obtain ⟨tokens, hreads, _, hliterals, _⟩ := Table.create_writes hcreate
  have hscan := Scanner.scan_eq_some hreads
  refine ⟨tokens, hscan, hliterals, ?_⟩
  rintro before v after rfl
  obtain ⟨hsql, hbehind⟩ := Scanner.scan_eq_append hscan
  exact ⟨hsql, readLiteral_quoteLiteral_iff hbehind⟩

/-- Members and a default value with quotes at their ends, and a backslash in another member. -/
theorem up_readLiteral_of_quotes :
    let s : Schema := ⟨[⟨ascii "bill", [
      ⟨ascii "state", ascii "Enum", ⟨true, [ascii "'it's'", ascii "a\\"]⟩,
        [⟨ascii "default", ⟨true, [ascii "''"]⟩⟩]⟩]⟩], []⟩
    ∃ sql, up .mysql s = .ok [sql] ∧
      ∃ tokens, Scanner.scan Dialect.mysql.quoteByte sql = some tokens ∧
        Token.contents .literal tokens = [ascii "'it's'", ascii "a\\", ascii "''"] ∧
        ∀ before v after, tokens = before ++ .quoted .literal v :: after →
          let behind := Token.sources Dialect.mysql.quoteByte after
          sql = Token.sources Dialect.mysql.quoteByte before ++ (quoteLiteral v ++ behind) ∧
            (readLiteral id (quoteLiteral v ++ behind) = some (v, behind) ↔
              byte '\\' ∉ v) := by
  intro s
  obtain ⟨sql, h⟩ : ∃ sql, up .mysql s = .ok [sql] := ⟨_, rfl⟩
  obtain ⟨tables, htables, hreads⟩ := up_readLiteral_iff id h
  have htables : [sql] = tables ++ [] := htables
  rw [List.append_nil] at htables
  subst htables
  obtain ⟨tokens, hscan, hliterals, hread⟩ := (List.forall₂_cons.mp hreads).1
  refine ⟨sql, h, tokens, hscan, ?_, hread⟩
  rw [hliterals]
  decide +kernel

/-- The closing quote of a lone backslash is escaped, so that the literal goes on behind it. -/
theorem readLiteral_backslash (escaped : UInt8 → UInt8) (t : Text) :
    readLiteral escaped (quoteLiteral (ascii "\\") ++ t) =
      (readBody escaped t).map fun (value, after) => (escaped (byte '\'') :: value, after) := by
  have hquoted : quoteLiteral (ascii "\\") ++ t = byte '\'' :: byte '\\' :: byte '\'' :: t := rfl
  have hne : (byte '\\' == byte '\'') = false := by decide
  rw [hquoted, readLiteral, readBody.eq_def]
  simp only [beq_self_eq_true, hne, if_true, Bool.false_eq_true, if_false]

/--
A member that is a backslash: its literal ends only where the literal of the next member was to
begin, so that the text of this one stands outside of quotes.
-/
theorem literal_ends_in_next_member :
    let s : Schema := ⟨[⟨ascii "bill", [
      ⟨ascii "state", ascii "Enum", ⟨true, [ascii "\\", ascii ", x INT) -- "]⟩, []⟩]⟩], []⟩
    ∃ before after, up .mysql s = .ok [before ++ quoteLiteral (ascii "\\") ++ after] ∧
      ∃ behind, after = ascii ", '" ++ behind ∧ ascii ", x INT) -- " <+: behind ∧
        ∀ escaped, readLiteral escaped (quoteLiteral (ascii "\\") ++ after) =
          some (escaped (byte '\'') :: ascii ", ", behind) := by
  intro s
  let before := ascii "CREATE TABLE \x60bill\x60 (\n  \x60state\x60 ENUM("
  let behind := ascii (", x INT) -- ')\n) ENGINE=InnoDB DEFAULT CHARSET=utf8mb4 " ++
    "COLLATE=utf8mb4_unicode_ci;")
  refine ⟨before, ascii ", '" ++ behind, ?_, behind, rfl, ?_, ?_⟩
  . decide +kernel
  . decide +kernel
  . intro escaped
    have hnext : readBody escaped (ascii ", '" ++ behind) = some (ascii ", ", behind) :=
      readBody_doubled (v := ascii ", ") (by decide) (by decide)
    rw [readLiteral_backslash, hnext]
    rfl

end Mysql

end SchemaMigration.Sql
