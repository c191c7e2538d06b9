import SchemaMigration.Proofs.Sql.Acceptance
import SchemaMigration.Proofs.Sql.Inverse

/-!
This module contains what a statement does to the tables of a database, read from its text: it
creates a table with the foreign keys that it declares, or it drops a table.
-/

namespace SchemaMigration.Sql

open Schema (Column Decorator Model)

structure ForeignKey where
  column : Text
  table : Text
  target : Text
  deriving DecidableEq, Repr

inductive Effect where
  | create (table : Text) (keys : List ForeignKey)
  | drop (table : Text)
  deriving DecidableEq, Repr

namespace Token

/--
The identifiers, each labelled with what stands outside of quotes right before it. The first
argument stands before the tokens.
-/
def labels : Text → List Token → List (Text × Text)
  | _, [] => []
  | before, bare b :: rest => labels (before ++ [b]) rest
  | _, quoted .literal _ :: rest => labels [] rest
  | before, quoted .identifier name :: rest => (before, name) :: labels [] rest

def trail : Text → List Token → Text
  | before, [] => before
  | before, bare b :: rest => trail (before ++ [b]) rest
  | _, quoted _ _ :: rest => trail [] rest

theorem labels_append (before : Text) (tokens tokens' : List Token) :
    labels before (tokens ++ tokens') =
      labels before tokens ++ labels (trail before tokens) tokens' := by
  induction tokens generalizing before with
  | nil => rfl
  | cons token tokens ih =>
    cases token with
    | bare b => exact ih _
    | quoted kind content =>
      cases kind with
      | literal => exact ih _
      | identifier => exact congrArg _ (ih _)

theorem labels_bare (before t : Text) (tokens : List Token) :
    labels before (t.map bare ++ tokens) = labels (before ++ t) tokens := by
  induction t generalizing before with
  | nil => rw [List.map_nil, List.nil_append, List.append_nil]
  | cons b t ih => exact (ih _).trans (by rw [List.append_assoc]; rfl)

theorem labels_eq_nil {tokens : List Token} (h : contents .identifier tokens = [])
    (before : Text) : labels before tokens = [] := by
  induction tokens generalizing before with
  | nil => rfl
  | cons token tokens ih =>
    cases token with
    | bare b => exact ih h _
    | quoted kind content =>
      cases kind with
      | literal => exact ih h _
      | identifier => cases h

end Token

namespace ForeignKey

def isColumnLabel (label : Text) : Bool := (ascii "FOREIGN KEY (").isSuffixOf label

def first? : List (Text × Text) → Option ForeignKey
  | (label, column) :: (label', table) :: (label'', target) :: _ =>
    if isColumnLabel label && label' == ascii ") REFERENCES " && label'' == ascii "(" then
      some ⟨column, table, target⟩
    else
      none
  | _ => none

def ofLabels : List (Text × Text) → List ForeignKey
  | [] => []
  | label :: rest => (first? (label :: rest)).toList ++ ofLabels rest

def ofColumn? (c : Column) : Option ForeignKey := do
  let target ← (c.decorator? (ascii "ref")).bind (·.args.head?)
  let (table, column) ← Table.referenceParts? target
  return ⟨c.name, table, column⟩

def ofModel (m : Model) : List ForeignKey := m.columns.filterMap ofColumn?

end ForeignKey

def effect? (quote : UInt8) (sql : Text) : Option Effect :=
  match (Scanner.scan quote sql).map (Token.labels []) with
  | some ((label, table) :: rest) =>
    if label = ascii "CREATE TABLE " then some (.create table (ForeignKey.ofLabels rest))
    else if label = ascii "DROP TABLE IF EXISTS " then some (.drop table)
    else none
  | _ => none

variable {dialect : Dialect} {m : Model} {c : Column} {s t w : Text} {keys keys' : List ForeignKey}

theorem ForeignKey.ofLabels_cons {label : Text} (h : isColumnLabel label = false) (name : Text)
    (rest : List (Text × Text)) : ofLabels ((label, name) :: rest) = ofLabels rest := by
  have hfirst : first? ((label, name) :: rest) = none := by
    unfold first?
    split
    . next heq =>
      cases heq
      simp [h]
    . rfl
  simp [ofLabels, hfirst]

theorem ForeignKey.ofLabels_key (before column table target : Text) (rest : List (Text × Text)) :
    ofLabels ((before ++ ascii "FOREIGN KEY (", column) :: (ascii ") REFERENCES ", table) ::
      (ascii "(", target) :: rest) = ⟨column, table, target⟩ :: ofLabels rest := by
  have hlabel : isColumnLabel (before ++ ascii "FOREIGN KEY (") = true :=
    List.isSuffixOf_iff_suffix.mpr (List.suffix_append before _)
  rw [ofLabels, ofLabels_cons (by decide), ofLabels_cons (by decide)]
  simp [first?, hlabel]

/-- A text declares foreign keys, whatever stands before and behind it. -/
def Declares (dialect : Dialect) (t : Text) (keys : List ForeignKey) : Prop :=
  ∃ tokens, Scanner.Reads dialect.quoteByte t tokens ∧ ∀ before rest,
    ForeignKey.ofLabels (Token.labels before tokens ++ rest) = keys ++ ForeignKey.ofLabels rest

theorem declares_nil : Declares dialect [] [] := ⟨[], Scanner.reads_nil, fun _ _ => rfl⟩

theorem Writes.declares {literals : List Text} (h : Writes dialect m t [] literals) :
    Declares dialect t [] := by
  obtain ⟨tokens, hreads, hidentifiers, _⟩ := h
  refine ⟨tokens, hreads, fun before rest => ?_⟩
  rw [Token.labels_eq_nil hidentifiers]
  rfl

theorem Declares.append (hs : Declares dialect s keys) (ht : Declares dialect t keys')
    (hstart : ∀ b ∈ t.head?, Scanner.opens? dialect.quoteByte b = none) :
    Declares dialect (s ++ t) (keys ++ keys') := by
  obtain ⟨tokens, hreads, hkeys⟩ := hs
  obtain ⟨tokens', hreads', hkeys'⟩ := ht
  refine ⟨tokens ++ tokens', hreads.append hreads' hstart, fun before rest => ?_⟩
  rw [Token.labels_append, List.append_assoc, hkeys, hkeys', List.append_assoc]

theorem Declares.follows_append {literals : List Text} (hs : Declares dialect s keys)
    (ht : Follows dialect m t [] literals) : Declares dialect (s ++ t) keys := by
  have h := hs.append ht.1.declares ht.2
  rwa [List.append_nil] at h

theorem opens?_head_append (hw : ∀ b ∈ w, isQuote b = false) (hne : w ≠ []) (dialect : Dialect)
    (t : Text) : ∀ b ∈ (w ++ t).head?, Scanner.opens? dialect.quoteByte b = none := by
  intro b hb
  obtain ⟨first, rest, rfl⟩ := List.exists_cons_of_ne_nil hne
  cases hb
  exact opens?_eq_none (hw _ (List.mem_cons_self ..)) dialect

theorem Declares.bare_append (hw : ∀ b ∈ w, isQuote b = false) (ht : Declares dialect t keys) :
    Declares dialect (w ++ t) keys := by
  obtain ⟨tokens, hreads, hkeys⟩ := ht
  refine ⟨w.map .bare ++ tokens,
    hreads.bare_append fun b hb => opens?_eq_none (hw b hb) dialect, fun before rest => ?_⟩
  rw [Token.labels_bare]
  exact hkeys _ rest

theorem reads_identifier (dialect : Dialect) (name : Text) :
    Scanner.Reads dialect.quoteByte (enclose dialect.quoteByte name)
      [.quoted .identifier name] := by
  have hopens : Scanner.opens? dialect.quoteByte dialect.quoteByte = some .identifier := by
    simp [Scanner.opens?]
  exact Scanner.reads_enclose .identifier hopens name

/-- A labelled identifier in front of a text. -/
theorem reads_name_append (hw : ∀ b ∈ w, isQuote b = false) (name : Text) {tokens : List Token}
    (ht : Scanner.Reads dialect.quoteByte t tokens)
    (hstart : ∀ b ∈ t.head?, Scanner.opens? dialect.quoteByte b = none) :
    Scanner.Reads dialect.quoteByte (w ++ (enclose dialect.quoteByte name ++ t))
        (w.map .bare ++ .quoted .identifier name :: tokens) ∧
      ∀ before, Token.labels before (w.map .bare ++ .quoted .identifier name :: tokens) =
        (before ++ w, name) :: Token.labels [] tokens := by
  constructor
  . refine Scanner.Reads.bare_append (fun b hb => opens?_eq_none (hw b hb) dialect) ?_
    exact (reads_identifier dialect name).append ht hstart
  . intro before
    rw [Token.labels_bare]
    rfl

/-- A short label that is no end of another one cannot become that by what stands before it. -/
theorem isColumnLabel_append (hlength : w.length ≤ 13)
    (h : ¬ w <:+ ascii "FOREIGN KEY (") (before : Text) :
    ForeignKey.isColumnLabel (before ++ w) = false := by
  rw [ForeignKey.isColumnLabel, Bool.eq_false_iff, Ne, List.isSuffixOf_iff_suffix]
  intro hsuffix
  exact h (List.suffix_of_suffix_length_le (List.suffix_append before w) hsuffix hlength)

theorem declares_name (hw : ∀ b ∈ w, isQuote b = false) (hlength : w.length ≤ 13)
    (hlabel : ¬ w <:+ ascii "FOREIGN KEY (") (name : Text) :
    Declares dialect (w ++ enclose dialect.quoteByte name) [] := by
  refine ⟨w.map .bare ++ [.quoted .identifier name], (reads_identifier dialect name).bare_append
    fun b hb => opens?_eq_none (hw b hb) dialect, fun before rest => ?_⟩
  rw [Token.labels_bare]
  exact ForeignKey.ofLabels_cons (isColumnLabel_append hlength hlabel before) name rest

namespace Table

theorem enumeration_check_declares (name first : Text) (others : List Text) :
    Declares dialect
      (ascii " CHECK (" ++ enclose dialect.quoteByte name ++ ascii " IN (" ++
        literals (first :: others) ++ ascii "))") [] := by
  have hname : Declares dialect (ascii " CHECK (" ++ enclose dialect.quoteByte name) [] :=
    declares_name (by decide +kernel) (by decide) (by decide) name
  have hmembers : Follows dialect ⟨[], []⟩ _ [] _ := membership_follows first others
  simpa using hname.follows_append hmembers

theorem check_declares (dialect : Dialect) (name : Text) (type : ColumnType) :
    Declares dialect (type.check dialect (enclose dialect.quoteByte name)) [] := by
  unfold ColumnType.check
  split
  . exact declares_nil
  . next first others _ => exact enumeration_check_declares name first others
  . exact declares_nil

theorem definition_declares (hc : c ∈ m.columns) (hfault : decoratorsFault? c = none) {text : Text}
    (h : definition dialect m c = .ok text) : Declares dialect (ascii "  " ++ text) [] := by
  rw [definition_eq] at h
  obtain ⟨type, htype, h⟩ := bind_eq_ok.mp h
  obtain ⟨name, hname, h⟩ := bind_eq_ok.mp h
  cases h
  cases quoted_ok hname
  have hfits := ColumnType.ofColumn_ok (mapError_eq_ok.mp htype)
  have hname : Declares dialect (ascii "  " ++ enclose dialect.quoteByte c.name) [] :=
    declares_name (by decide +kernel) (by decide) (by decide) c.name
  have htyped : Follows dialect m (byte ' ' :: type.render dialect) [] _ :=
    Follows.fixed_append (w := [byte ' ']) (by simp [vocabulary])
      (ColumnType.render_follows hc hfits).1
  have hclauses : Follows dialect m (c.decorators.flatMap (clause dialect c)) [] _ :=
    clauses_follows hc fun d hd => ⟨hd, decoratorFault?_of_mem hfault hd⟩
  have hlast : Follows dialect m (lastClause dialect c) [] [] := lastClause_follows c
  have h := (hname.follows_append htyped).follows_append hclauses
  have h := h.append (check_declares dialect c.name type) (check_follows (m := m) hfits).2
  simpa using h.follows_append hlast

theorem foreignKey_declares {target text : Text} (htarget : argument? c .reference = some target)
    (h : foreignKey dialect m c target = .ok text) :
    ∃ key, ForeignKey.ofColumn? c = some key ∧ Declares dialect (ascii "  " ++ text) [key] := by
  unfold foreignKey at h
  split at h
  . contradiction
  . next table column hparts =>
    obtain ⟨_, hcolumn, h⟩ := bind_eq_ok.mp h
    obtain ⟨_, htable, h⟩ := bind_eq_ok.mp h
    obtain ⟨_, hname, h⟩ := bind_eq_ok.mp h
    cases quoted_ok hcolumn
    cases quoted_ok htable
    cases quoted_ok hname
    cases h
    refine ⟨⟨c.name, table, column⟩, ?_, ?_⟩
    . rw [ForeignKey.ofColumn?, ← argument?_reference, htarget]
      simp [hparts]
    . have hopen : ∀ b ∈ [byte '('], isQuote b = false := by decide +kernel
      have hreferences : ∀ b ∈ ascii ") REFERENCES ", isQuote b = false := by decide +kernel
      have hkey : ∀ b ∈ ascii "FOREIGN KEY (", isQuote b = false := by decide +kernel
      obtain ⟨⟨tokens, hreads, hidentifiers, _⟩, hstart⟩ :=
        Follows.fixed_append (w := [byte ')']) (by simp [vocabulary])
          (onDelete_follows dialect m ((argument? c .onDelete).bind Action.ofText?)).1
      obtain ⟨hreads, hcolumn⟩ := reads_name_append hopen column hreads hstart
      obtain ⟨hreads, htable⟩ := reads_name_append hreferences table hreads
        (opens?_head_append hopen (List.cons_ne_nil _ _) dialect _)
      obtain ⟨hreads, hname⟩ := reads_name_append hkey c.name hreads
        (opens?_head_append hreferences (by decide) dialect _)
      refine Declares.bare_append (w := ascii "  ") (by decide +kernel) ?_
      simp only [List.append_assoc, List.cons_append, List.nil_append] at hreads ⊢
      refine ⟨_, hreads, fun before rest => ?_⟩
      rw [hname, htable, hcolumn, Token.labels_eq_nil hidentifiers]
      exact ForeignKey.ofLabels_key before c.name table column rest

inductive DeclaresEach (dialect : Dialect) : List Text → List ForeignKey → Prop
  | nil : DeclaresEach dialect [] []
  | cons {t : Text} {ts : List Text} {keys keys' : List ForeignKey}
    (h : Declares dialect (ascii "  " ++ t) keys) (hrest : DeclaresEach dialect ts keys') :
    DeclaresEach dialect (t :: ts) (keys ++ keys')

variable {ts ts' : List Text}

theorem DeclaresEach.append (h : DeclaresEach dialect ts keys)
    (h' : DeclaresEach dialect ts' keys') : DeclaresEach dialect (ts ++ ts') (keys ++ keys') := by
  induction h with
  | nil => exact h'
  | cons h _ ih =>
    rw [List.append_assoc]
    exact .cons h ih

theorem lines_declares (h : DeclaresEach dialect ts keys) (hne : ts ≠ []) :
    Declares dialect (Text.join (ascii ",\n") (ts.map (ascii "  " ++ ·))) keys := by
  induction h with
  | nil => contradiction
  | cons ht hrest ih =>
    cases hrest with
    | nil =>
      rw [List.append_nil]
      exact ht
    | cons hnext hrest =>
      have hcomma : ∀ b ∈ ascii ",\n", isQuote b = false := by decide +kernel
      have hlines := (ih (List.cons_ne_nil _ _)).bare_append hcomma
      have h := ht.append hlines (opens?_head_append hcomma (by decide) dialect _)
      simpa [Text.join] using h

theorem body_declares (h : DeclaresEach dialect ts keys) : Declares dialect (body ts) keys := by
  cases h with
  | nil => exact declares_nil
  | cons ht hrest =>
    have hlines := lines_declares (.cons ht hrest) (List.cons_ne_nil _ _)
    have hbreak : Follows dialect ⟨[], []⟩ [byte '\n'] [] [] := follows_fixed (by simp [vocabulary])
    exact hlines.follows_append hbreak

theorem columnParts_declares (hc : c ∈ m.columns) {part : Text × Option Text}
    (h : columnParts dialect m c = .ok part) :
    Declares dialect (ascii "  " ++ part.1) [] ∧
      DeclaresEach dialect part.2.toList (ForeignKey.ofColumn? c).toList := by
  unfold columnParts at h
  split at h
  . contradiction
  . next hfault =>
    obtain ⟨text, hdefinition, h⟩ := bind_eq_ok.mp h
    have hdeclares := definition_declares hc hfault hdefinition
    split at h
    . next hnone =>
      cases h
      rw [ForeignKey.ofColumn?, ← argument?_reference, hnone]
      exact ⟨hdeclares, .nil⟩
    . next target htarget =>
      obtain ⟨text, hkey, h⟩ := bind_eq_ok.mp h
      cases h
      obtain ⟨key, hcolumn, hkey⟩ := foreignKey_declares htarget hkey
      rw [hcolumn]
      exact ⟨hdeclares, .cons hkey .nil⟩

theorem columns_declare {columns : List Column} {parts : List (Text × Option Text)}
    (hcolumns : ∀ c ∈ columns, c ∈ m.columns)
    (h : List.Forall₂ (fun c part => columnParts dialect m c = .ok part) columns parts) :
    DeclaresEach dialect (parts.map (·.1)) [] ∧
      DeclaresEach dialect (parts.filterMap (·.2)) (columns.filterMap ForeignKey.ofColumn?) := by
  induction h with
  | nil => exact ⟨.nil, .nil⟩
  | @cons c part columns parts hpart _ ih =>
    obtain ⟨hdefinition, hkey⟩ := columnParts_declares (hcolumns c (List.mem_cons_self ..)) hpart
    obtain ⟨hdefinitions, hkeys⟩ := ih fun c hc => hcolumns c (List.mem_cons_of_mem _ hc)
    refine ⟨.cons hdefinition hdefinitions, ?_⟩
    rw [filterMap_cons_eq_append, filterMap_cons_eq_append]
    exact hkey.append hkeys

theorem create_effect {sql : Text} (h : create dialect m = .ok sql) :
    effect? dialect.quoteByte sql = some (.create m.name (ForeignKey.ofModel m)) := by
  unfold create at h
  obtain ⟨table, htable, h⟩ := bind_eq_ok.mp h
  obtain ⟨parts, hparts, h⟩ := bind_eq_ok.mp h
  cases quoted_ok htable
  cases h
  obtain ⟨hdefinitions, hkeys⟩ := columns_declare (fun _ hc => hc) (forall₂_of_mapM_ok hparts)
  have hend : Follows dialect m ([byte ')'] ++ suffix dialect) [] [] :=
    Follows.fixed_append (by simp [vocabulary]) (follows_fixed (suffix_mem dialect)).1
  have hopen : ∀ b ∈ ascii " (\n", isQuote b = false := by decide +kernel
  obtain ⟨tokens, hreads, hkeys⟩ :=
    ((body_declares (hdefinitions.append hkeys)).follows_append hend).bare_append hopen
  obtain ⟨hreads, hlabels⟩ := reads_name_append (w := ascii "CREATE TABLE ")
    (by decide +kernel) m.name hreads (opens?_head_append hopen (by decide) dialect _)
  have hkeys : ForeignKey.ofLabels (Token.labels [] tokens) = ForeignKey.ofModel m := by
    simpa [ForeignKey.ofLabels, ForeignKey.ofModel] using hkeys [] []
  have hscan := Scanner.scan_eq_some hreads
  simp only [List.append_assoc, List.cons_append, List.nil_append] at hscan ⊢
  simp only [effect?, hscan, Option.map_some, hlabels, List.nil_append, if_true, hkeys]

example :
    effect? (byte '"')
        (ascii "CREATE TABLE \"posts\" (\n  \"author\" INTEGER DEFAULT 'FOREIGN KEY (',\n" ++
          ascii "  FOREIGN KEY (\"author\") REFERENCES \"users\"(\"id\") ON DELETE CASCADE\n);") =
      some (.create (ascii "posts") [⟨ascii "author", ascii "users", ascii "id"⟩]) := by
  decide +kernel

theorem drop_effect {sql : Text} (h : drop dialect m = .ok sql) :
    effect? dialect.quoteByte sql = some (.drop m.name) := by
  cases drop_drops h
  have hend : Follows dialect m (ascii ";") [] [] := follows_fixed (by simp [vocabulary])
  obtain ⟨⟨tokens, hreads, _⟩, hstart⟩ := hend
  obtain ⟨hreads, hlabels⟩ := reads_name_append (w := ascii "DROP TABLE IF EXISTS ")
    (by decide +kernel) m.name hreads hstart
  have hscan := Scanner.scan_eq_some hreads
  rw [← List.append_assoc] at hscan
  simp only [effect?, hscan, Option.map_some, hlabels, List.nil_append, if_true]
  rw [if_neg (by decide)]

end Table

end SchemaMigration.Sql
