import Mathlib.Logic.Relation
import SchemaMigration.Proofs.Run.Account
import SchemaMigration.Proofs.Run.Service
import SchemaMigration.Proofs.Sql.Inverse

/-!
This module contains that rolling back undoes what was applied. The content that a run reads from a
migration file is the one that it executes and whose hash it records, and a later run rolls it back
only if it reads the same content again, whatever others do to the migration files meanwhile.
-/

namespace SchemaMigration.Run

open Digest (contentHash)
open Program (Ensures Exec)

/-- A committed transaction, with the content of its file where that was read last. -/
structure Transaction where
  direction : Direction
  file : Text
  content? : Option Text
  statements : List Text
  deriving DecidableEq, Repr

def newest? (transactions : List Transaction) (file : Text) : Option Transaction :=
  (transactions.filter (·.file == file)).getLast?

theorem newest?_append (older newer : List Transaction) (file : Text) :
    newest? (older ++ newer) file = (newest? newer file).or (newest? older file) := by
  unfold newest?
  rw [List.filter_append, List.getLast?_append]

theorem newest?_append_of_not_mem {older newer : List Transaction} {file : Text}
    (h : file ∉ newer.map (·.file)) : newest? (older ++ newer) file = newest? older file := by
  have hnone : newest? newer file = none := by
    unfold newest?
    rw [List.getLast?_eq_none_iff, List.filter_eq_nil_iff]
    intro t ht hfile
    exact h (List.mem_map.mpr ⟨t, ht, by simpa using hfile⟩)
  rw [newest?_append, hnone, Option.none_or]

theorem newest?_append_self (older : List Transaction) (t : Transaction) :
    newest? (older ++ [t]) t.file = some t := by
  simp [newest?]

def AppliedFrom (dialect : Sql.Dialect) (transactions : List Transaction) (file content : Text) :
    Prop :=
  ∃ sql, newest? transactions file = some ⟨.apply, file, some content, sql⟩ ∧
    statements dialect .apply ⟨file, content⟩ = .ok sql

/-- A transaction rolls back the content that the newest transaction of its file applied. -/
def Undoes (dialect : Sql.Dialect) (before : List Transaction) (t : Transaction) : Prop :=
  ∃ content, t.content? = some content ∧ AppliedFrom dialect before t.file content ∧
    statements dialect .rollBack ⟨t.file, content⟩ = .ok t.statements

/--
The statements that roll a content back drop the tables that the statements that apply it create for
its models, in reverse order.
-/
def Mirrors (dialect : Sql.Dialect) (content : Text) (applied rolledBack : List Text) : Prop :=
  ∃ schema tables, Schema.parse content = .ok schema ∧ applied = tables ++ schema.rawSql ∧
    List.Forall₂ (Sql.Creates dialect) (schema.models.map (·.name)) tables ∧
    List.Forall₂ (Sql.Drops dialect) (schema.models.map (·.name)).reverse rolledBack

def RollBacks (dialect : Sql.Dialect) (transactions : List Transaction) : Prop :=
  ∀ before t after, transactions = before ++ t :: after → t.direction = .rollBack →
    Undoes dialect before t

theorem RollBacks.append_singleton {dialect : Sql.Dialect} {transactions : List Transaction}
    (h : RollBacks dialect transactions) {t : Transaction}
    (ht : t.direction = .rollBack → Undoes dialect transactions t) :
    RollBacks dialect (transactions ++ [t]) := by
  intro before t' after heq hdirection
  cases append_singleton_eq_iff.mp heq with
  | inl hlast =>
    obtain ⟨_, rfl, rfl⟩ := hlast
    exact ht hdirection
  | inr hearlier =>
    obtain ⟨newer, _, holder⟩ := hearlier
    exact h before t' newer holder hdirection

structure Chronicle where
  files : Files
  reads : List (List MigrationFile)
  transactions : List Transaction

namespace Chronicle

def after (s : Chronicle) (files : Files) : (r : Request) → Reply r → Chronicle
  | .loadFiles, .ok read => { s with files, reads := read :: s.reads }
  | .transaction direction file statements, .ok () =>
    let content? := (MigrationFile.find? (s.reads.headD []) file).map (·.content)
    { s with files, transactions := s.transactions ++ [⟨direction, file, content?, statements⟩] }
  | _, _ => { s with files }

def contents (s : Chronicle) : List Text := s.reads.flatten.map (·.content)

/--
The requests of a run, as they are served on the file system. Others may change all files but the
ledger file and the temporary files beside it.
-/
def server (options : Options) : Server Access Chronicle where
  Admits _ _ := True
  Serves r s reply s' :=
    ∃ files, Exec (World.server (File.Owns options.ledger)) (serve options World.pause r) s.files
        (.ok reply) files ∧
      s' = s.after files r reply

/-- One run, or a change that others make between runs. No run ends in an inconsistency. -/
inductive Step (dialect : Sql.Dialect) (ledger : Path) : Chronicle → Chronicle → Prop
  | edit {s : Chronicle} {files : Files} (hledger : files ledger = s.files ledger) :
    Step dialect ledger s { s with files }
  | up {options : Options} (hledger : options.ledger = ledger) {s s' : Chronicle}
    {outcome : Except Failure Applied}
    (hexec : Exec (server options) (up dialect ledger) s outcome s')
    (hconsistent : ¬ EndsInconsistent outcome) : Step dialect ledger s s'
  | down {options : Options} (hledger : options.ledger = ledger) {s s' : Chronicle}
    {outcome : Except Failure RolledBack}
    (hexec : Exec (server options) (down dialect ledger) s outcome s')
    (hconsistent : ¬ EndsInconsistent outcome) : Step dialect ledger s s'

variable {dialect : Sql.Dialect} {direction : Direction} {ledger : Path} {s s' start : Chronicle}

def Collides (s : Chronicle) : Prop :=
  ∃ a ∈ s.contents, ∃ b ∈ s.contents, contentHash a = contentHash b ∧ a ≠ b

def Tells (dialect : Sql.Dialect) (s : Chronicle) (e : Ledger.Entry) : Prop :=
  ∃ content ∈ s.contents, e.hash = contentHash content ∧
    AppliedFrom dialect s.transactions e.file content

/-- The entries of the ledger tell what was applied, and what was rolled back had been applied. -/
structure Faithful (dialect : Sql.Dialect) (ledger : Path) (s : Chronicle) : Prop where
  entries : ∀ e ∈ Ledger.entries (s.files ledger), Tells dialect s e
  rollBacks : RollBacks dialect s.transactions

theorem content_mem {name : Text} {file : MigrationFile}
    (h : MigrationFile.find? (s.reads.headD []) name = some file) : file.content ∈ s.contents := by
  have hmem : file ∈ s.reads.headD [] := List.mem_of_find?_eq_some h
  apply List.mem_map_of_mem
  apply List.mem_flatten.mpr
  cases hreads : s.reads with
  | nil => simp [hreads] at hmem
  | cons read reads =>
    rw [hreads] at hmem
    exact ⟨read, List.mem_cons_self, hmem⟩

theorem contents_after (s : Chronicle) (files : Files) (r : Request) (reply : Reply r) :
    s.contents ⊆ (s.after files r reply).contents := by
  unfold after
  split
  . intro content hcontent
    rw [contents, List.flatten_cons, List.map_append]
    exact List.mem_append_right _ hcontent
  . exact List.Subset.refl _
  . exact List.Subset.refl _

theorem Collides.mono (h : s.Collides) (hcontents : s.contents ⊆ s'.contents) : s'.Collides := by
  obtain ⟨a, ha, b, hb, hhash, hne⟩ := h
  exact ⟨a, hcontents ha, b, hcontents hb, hhash, hne⟩

theorem Tells.mono {e : Ledger.Entry} (h : Tells dialect s e) (hcontents : s.contents ⊆ s'.contents)
    {newer : List Transaction} (htransactions : s'.transactions = s.transactions ++ newer)
    (hfile : e.file ∉ newer.map (·.file)) : Tells dialect s' e := by
  obtain ⟨content, hcontent, hhash, sql, hnewest, hsql⟩ := h
  refine ⟨content, hcontents hcontent, hhash, sql, ?_, hsql⟩
  rw [htransactions, newest?_append_of_not_mem hfile]
  exact hnewest

structure Follows (dialect : Sql.Dialect) (ledger : Path) (direction : Direction)
    (start : Chronicle) (c : Course) (s : Chronicle) : Prop where
  faithful : start.Faithful dialect ledger
  found : ∀ name file, MigrationFile.find? c.files name = some file →
    MigrationFile.find? (s.reads.headD []) name = some file
  loaded : ∀ e ∈ c.entries, Tells dialect start e
  distinct : (c.entries.map (·.file)).Nodup
  contents : start.contents ⊆ s.contents
  committed : ∃ newer, s.transactions = start.transactions ++ newer ∧
    newer.map (·.file) = c.committed
  rollBacks : RollBacks dialect s.transactions
  applied : direction = .apply → ∀ name ∈ c.committed, ∀ file,
    MigrationFile.find? c.files name = some file →
      AppliedFrom dialect s.transactions name file.content
  pending : c.updated? = none →
    Ledger.entries (s.files ledger) = Ledger.entries (start.files ledger)
  updated : c.updated? = some true → ∀ e ∈ Ledger.entries (s.files ledger), Tells dialect s e

variable {c : Course} {files : Files}

theorem Faithful.follows (h : start.Faithful dialect ledger) :
    Follows dialect ledger direction start .initial start where
  faithful := h
  found _ _ hfind := by cases hfind
  loaded := nofun
  distinct := List.nodup_nil
  contents := List.Subset.refl _
  committed := ⟨[], (List.append_nil _).symm, rfl⟩
  rollBacks := h.rollBacks
  applied := nofun
  pending _ := rfl
  updated := nofun

namespace Follows

theorem withFiles (h : Follows dialect ledger direction start c s)
    (hentries : Ledger.entries (files ledger) = Ledger.entries (s.files ledger)) :
    Follows dialect ledger direction start c { s with files } where
  faithful := h.faithful
  found := h.found
  loaded := h.loaded
  distinct := h.distinct
  contents := h.contents
  committed := h.committed
  rollBacks := h.rollBacks
  applied := h.applied
  pending hupdated := hentries.trans (h.pending hupdated)
  updated hupdated e he := h.updated hupdated e (hentries ▸ he)

theorem load (h : Follows dialect ledger direction start c s) (hupdated : c.updated? = none)
    {state : Ledger.State} (hstate : state.entries = Ledger.entries (s.files ledger))
    (hnodup : state.files.Nodup) :
    Follows dialect ledger direction start { c with entries := state.entries } s := by
  refine { h with loaded := ?_, distinct := hnodup }
  intro e he
  rw [hstate, h.pending hupdated] at he
  exact h.faithful.entries e he

theorem loadFiles (h : Follows dialect ledger direction start c s) (hcommitted : c.committed = [])
    (read : List MigrationFile) :
    Follows dialect ledger direction start { c with files := read }
      { s with reads := read :: s.reads } := by
  have hcontents : s.contents ⊆ Chronicle.contents { s with reads := read :: s.reads } :=
    contents_after s s.files .loadFiles (.ok read)
  refine { h with found := fun _ _ hfind => hfind, contents := ?_, applied := ?_, updated := ?_ }
  . exact List.Subset.trans h.contents hcontents
  . intro _ name hname
    simp [hcommitted] at hname
  . intro hupdated e he
    exact (h.updated hupdated e he).mono hcontents (List.append_nil _).symm List.not_mem_nil

theorem commit (h : Follows dialect ledger direction start c s) (hupdated : c.updated? = none)
    {t : Transaction} (hrollBack : t.direction = .rollBack → Undoes dialect s.transactions t)
    (happly : direction = .apply → ∀ file, MigrationFile.find? c.files t.file = some file →
      AppliedFrom dialect (s.transactions ++ [t]) t.file file.content) :
    Follows dialect ledger direction start { c with committed := c.committed ++ [t.file] }
      { s with transactions := s.transactions ++ [t] } := by
  obtain ⟨newer, hnewer, hnames⟩ := h.committed
  refine { h with
    committed := ?_, rollBacks := h.rollBacks.append_singleton hrollBack, applied := ?_,
    updated := ?_ }
  . refine ⟨newer ++ [t], ?_, ?_⟩
    . rw [hnewer, List.append_assoc]
    . rw [List.map_append, hnames]
      rfl
  . intro hdirection name hname file hfile
    by_cases heq : name = t.file
    . subst heq
      exact happly hdirection file hfile
    . have hmem : name ∈ c.committed := by simpa [heq] using hname
      obtain ⟨sql, hnewest, hsql⟩ := h.applied hdirection name hmem file hfile
      refine ⟨sql, ?_, hsql⟩
      rw [newest?_append_of_not_mem (by simpa using heq)]
      exact hnewest
  . intro htrue
    rw [hupdated] at htrue
    cases htrue

theorem commit_apply (h : Follows dialect ledger .apply start c s) (hupdated : c.updated? = none)
    {file : MigrationFile} (hdue : Course.Due .apply c file) {sql : List Text}
    (hsql : statements dialect .apply file = .ok sql) :
    Follows dialect ledger .apply start { c with committed := c.committed ++ [file.name] }
      { s with
        transactions := s.transactions ++ [⟨.apply, file.name, some file.content, sql⟩] } := by
  refine h.commit (t := ⟨.apply, file.name, some file.content, sql⟩) hupdated nofun ?_
  intro _ found hfound
  have heq := Option.some.inj (hdue.found.symm.trans hfound)
  subst heq
  exact ⟨sql, newest?_append_self _ _, hsql⟩

theorem commit_rollBack (h : Follows dialect ledger .rollBack start c s) (hcollides : ¬ s.Collides)
    (hupdated : c.updated? = none) {file : MigrationFile} (hdue : Course.Due .rollBack c file)
    (hdistinct : Course.Distinct .rollBack c [file.name]) {sql : List Text}
    (hsql : statements dialect .rollBack file = .ok sql) :
    Follows dialect ledger .rollBack start { c with committed := c.committed ++ [file.name] }
      { s with
        transactions := s.transactions ++ [⟨.rollBack, file.name, some file.content, sql⟩] } := by
  refine h.commit (t := ⟨.rollBack, file.name, some file.content, sql⟩) hupdated ?_ nofun
  intro _
  refine ⟨file.content, rfl, ?_, hsql⟩
  -- The entry has the hash of what was applied, and the file has the hash of the entry.
  obtain ⟨e, he, hname, hhash⟩ := hdue.recorded rfl
  obtain ⟨content, hcontent, hrecorded, sql', hnewest, hsql'⟩ := h.loaded e he
  have hread := content_mem (h.found _ _ hdue.found)
  have hsame : content = file.content := by
    apply Decidable.byContradiction
    intro hne
    exact hcollides ⟨content, h.contents hcontent, file.content, hread,
      hrecorded.symm.trans hhash, hne⟩
  subst hsame
  rw [hname] at hnewest hsql'
  obtain ⟨newer, hnewer, hnames⟩ := h.committed
  refine ⟨sql', ?_, hsql'⟩
  rw [hnewer, newest?_append_of_not_mem]
  . exact hnewest
  . rw [hnames]
    intro hmem
    have hnodup := List.nodup_append.mp (hdistinct rfl h.distinct)
    exact hnodup.2.2 _ hmem _ List.mem_cons_self rfl

theorem tells_of_not_mem (h : Follows dialect ledger direction start c s) {e : Ledger.Entry}
    (he : e ∈ Ledger.entries (start.files ledger)) (hfile : e.file ∉ c.committed) :
    Tells dialect s e := by
  obtain ⟨newer, hnewer, hnames⟩ := h.committed
  exact (h.faithful.entries e he).mono h.contents hnewer (hnames ▸ hfile)

theorem record (h : Follows dialect ledger .apply start c s) (hupdated : c.updated? = none)
    {committed : List MigrationFile} (hnames : committed.map (·.name) = c.committed)
    (hdue : ∀ file ∈ committed, Course.Due .apply c file) {ok : Bool}
    (halters : (Ledger.entries (files ledger) = Ledger.entries (s.files ledger) ∧ ok = false) ∨
      Ledger.Appended committed (Ledger.entries (s.files ledger)) (Ledger.entries (files ledger))) :
    Follows dialect ledger .apply start { c with updated? := some ok } { s with files } := by
  refine { h with pending := nofun, updated := ?_ }
  intro hok e he
  rw [h.pending hupdated] at halters
  cases halters with
  | inl hfailed =>
    rw [hfailed.2] at hok
    cases hok
  | inr happended =>
    change e ∈ Ledger.entries (files ledger) at he
    generalize Ledger.entries (files ledger) = entries at happended he
    cases happended with
    | batch appliedAt _ hfresh =>
      cases List.mem_append.mp he with
      | inl hold =>
        apply h.tells_of_not_mem hold
        intro hmem
        exact hfresh.unseen _ (hnames ▸ hmem) (List.mem_map_of_mem hold)
      | inr hnew =>
        obtain ⟨file, hfile, rfl⟩ := List.mem_map.mp hnew
        have hfound := (hdue file hfile).found
        have hmem : file.name ∈ c.committed := hnames ▸ List.mem_map_of_mem hfile
        exact ⟨file.content, content_mem (h.found _ _ hfound), rfl,
          h.applied rfl file.name hmem file hfound⟩

theorem remove (h : Follows dialect ledger .rollBack start c s) (hupdated : c.updated? = none)
    {ok : Bool}
    (halters : (Ledger.entries (files ledger) = Ledger.entries (s.files ledger) ∧ ok = false) ∨
      Ledger.entries (files ledger) =
        (Ledger.entries (s.files ledger)).filter (!c.committed.contains ·.file)) :
    Follows dialect ledger .rollBack start { c with updated? := some ok } { s with files } := by
  refine { h with pending := nofun, updated := ?_ }
  intro hok e he
  rw [h.pending hupdated] at halters
  cases halters with
  | inl hfailed =>
    rw [hfailed.2] at hok
    cases hok
  | inr hremoved =>
    change e ∈ Ledger.entries (files ledger) at he
    rw [hremoved, List.mem_filter] at he
    apply h.tells_of_not_mem he.1
    simpa using he.2

/-- What a request of a run does to the chronicle, unless two contents have one hash. -/
theorem after {r : Request} {reply : Reply r} (h : Follows dialect ledger direction start c s)
    (hcollides : ¬ s.Collides) (hadmits : (Course.server dialect direction).Admits r c)
    (halters : Alters r reply (Ledger.entries (s.files ledger)) (Ledger.entries (files ledger))) :
    Follows dialect ledger direction start (c.after r reply) (s.after files r reply) := by
  cases r with
  | load =>
    cases reply with
    | error e => exact h.withFiles halters.1
    | ok state =>
      obtain ⟨hentries, hnodup⟩ := halters.2 state rfl
      exact (h.load hadmits.2 hentries hnodup).withFiles halters.1
  | loadFiles =>
    cases reply with
    | error e => exact h.withFiles halters
    | ok read => exact (h.loadFiles hadmits.1 read).withFiles halters
  | record committed =>
    obtain ⟨rfl, hupdated, _, hnames, hdue⟩ := hadmits
    exact h.record hupdated hnames hdue halters
  | remove committed =>
    obtain ⟨rfl, hupdated, _, rfl⟩ := hadmits
    exact h.remove hupdated halters
  | transaction direction' name sql =>
    cases reply with
    | error e => exact h.withFiles halters
    | ok _ =>
      obtain ⟨rfl, hupdated, hdistinct, file, hdue, rfl, hsql⟩ := hadmits
      rw [Chronicle.after, h.found _ _ hdue.found]
      cases direction' with
      | apply => exact (h.commit_apply hupdated hdue hsql).withFiles halters
      | rollBack =>
        exact (h.commit_rollBack hcollides hupdated hdue hdistinct hsql).withFiles halters
  | _ => exact h.withFiles halters

theorem faithful_of_ends (h : Follows dialect ledger direction start c s) {α : Type}
    {outcome : Except Failure α} (hends : Course.Ends direction ledger outcome c)
    (hconsistent : ¬ EndsInconsistent outcome) : s.Faithful dialect ledger := by
  refine ⟨?_, h.rollBacks⟩
  cases hends with
  | idle hcommitted hupdated =>
    intro e he
    rw [h.pending hupdated] at he
    apply h.tells_of_not_mem he
    rw [hcommitted]
    exact List.not_mem_nil
  | updated hupdated => exact h.updated hupdated
  | inconsistent _ cause => exact absurd ⟨_, _, _, _, rfl⟩ hconsistent

end Follows

variable {α : Type}

theorem faithful_of_exec {options : Options} {p : Program Access Failure α}
    {outcome : Except Failure α} (hs : s.Collides ∨ s.Faithful dialect options.ledger)
    (hp : Ensures (Course.server dialect direction) p .initial
      (Course.Ends direction options.ledger))
    (hexec : Exec (server options) p s outcome s') (hconsistent : ¬ EndsInconsistent outcome) :
    s'.Collides ∨ s'.Faithful dialect options.ledger := by
  have hsimulated : Ensures (server options) p s fun outcome t =>
      ∃ c, (t.Collides ∨ Follows dialect options.ledger direction s c t) ∧
        Course.Ends direction options.ledger outcome c := by
    apply hp.simulate _ (fun _ _ _ _ _ => trivial) _ (hs.imp_right Faithful.follows)
    rintro r c t reply _ ht hadmits ⟨files, hserve, rfl⟩
    refine ⟨_, rfl, ?_⟩
    by_cases hcollides : t.Collides
    . exact .inl (hcollides.mono (contents_after t files r reply))
    . exact .inr ((ht.resolve_left hcollides).after hcollides hadmits (serve_alters hserve))
  obtain ⟨c, hc, hends⟩ := hsimulated.of_exec hexec
  exact hc.imp_right (·.faithful_of_ends hends hconsistent)

theorem Step.faithful (h : Step dialect ledger s s')
    (hs : s.Collides ∨ s.Faithful dialect ledger) : s'.Collides ∨ s'.Faithful dialect ledger := by
  cases h with
  | edit hledger =>
    refine hs.imp_right fun hs => ⟨?_, hs.rollBacks⟩
    intro e he
    dsimp only at he
    rw [hledger] at he
    exact hs.entries e he
  | up hledger hexec hconsistent =>
    subst hledger
    exact faithful_of_exec hs (Course.up_ensures dialect _) hexec hconsistent
  | down hledger hexec hconsistent =>
    subst hledger
    exact faithful_of_exec hs (Course.down_ensures dialect _) hexec hconsistent

theorem faithful_of_steps (hs : s.Faithful dialect ledger)
    (hruns : Relation.ReflTransGen (Step dialect ledger) s s') :
    s'.Collides ∨ s'.Faithful dialect ledger := by
  induction hruns with
  | refl => exact .inr hs
  | tail _ hstep ih => exact hstep.faithful ih

/-- Runs a program where everything succeeds and the migrations directory holds one file. -/
def play (options : Options) (file : Text) :
    Program Access Failure α → Chronicle → Except Failure α × Chronicle
  | .done a, s => (.ok a, s)
  | .fail e, s => (.error e, s)
  | .ask r next, s =>
    match (serve options World.pause r).run (World.obliging file) s.files with
    | (.ok reply, files) => play options file (next reply) (s.after files r reply)
    | (.error e, _) => (.error e, s)

theorem exec_play (options : Options) (file : Text) (p : Program Access Failure α) (s : Chronicle) :
    Exec (server options) p s (play options file p s).1 (play options file p s).2 := by
  induction p generalizing s with
  | done a => exact .done a s
  | fail e => exact .fail e s
  | ask r next ih =>
    unfold play
    split
    . next reply files hrun =>
      exact .ask ⟨files, World.exec_obliging hrun _, rfl⟩ (ih reply _)
    . next e files hrun =>
      -- A request of a run always gets a reply, if only one that tells of a failure.
      exact nomatch isOk_of_exec (World.exec_obliging hrun (File.Owns options.ledger))

theorem mirrors_of_statements {file content : Text} {applied rolledBack : List Text}
    (happly : statements dialect .apply ⟨file, content⟩ = .ok applied)
    (hrollBack : statements dialect .rollBack ⟨file, content⟩ = .ok rolledBack) :
    Mirrors dialect content applied rolledBack := by
  obtain ⟨schema, hschema, hup⟩ := bind_eq_ok.mp happly
  obtain ⟨schema', hschema', hdown⟩ := bind_eq_ok.mp hrollBack
  rw [mapError_eq_ok] at hschema hschema' hup hdown
  cases hschema.symm.trans hschema'
  obtain ⟨tables, happlied, htables⟩ := Sql.up_creates hup
  exact ⟨schema, tables, hschema, happlied, htables, Sql.down_drops hdown⟩

/--
Behind any sequence of runs, the entries of the ledger have the hashes of the contents that were
applied last. What was rolled back in a transaction is the content that the newest transaction of
its file had applied, so that it drops the tables which that one created, in reverse order.
-/
theorem rollBack_undoes_newest_apply (hstart : s.files ledger = none ∧ s.transactions = [])
    (hruns : Relation.ReflTransGen (Step dialect ledger) s s')
    (hhash : ∀ a ∈ s'.contents, ∀ b ∈ s'.contents, contentHash a = contentHash b → a = b) :
    (∀ e ∈ Ledger.entries (s'.files ledger), ∃ content, e.hash = contentHash content ∧
      AppliedFrom dialect s'.transactions e.file content) ∧
    ∀ before t after, s'.transactions = before ++ t :: after → t.direction = .rollBack →
      ∃ content sql, t.content? = some content ∧
        newest? before t.file = some ⟨.apply, t.file, some content, sql⟩ ∧
        statements dialect .apply ⟨t.file, content⟩ = .ok sql ∧
        statements dialect .rollBack ⟨t.file, content⟩ = .ok t.statements ∧
        Mirrors dialect content sql t.statements := by
  have hs : s.Faithful dialect ledger := by
    refine ⟨?_, ?_⟩
    . rw [hstart.1]
      exact nofun
    . intro before t after heq
      simp [hstart.2] at heq
  have hfaithful : s'.Faithful dialect ledger := by
    apply (faithful_of_steps hs hruns).resolve_left
    rintro ⟨a, ha, b, hb, hsame, hne⟩
    exact hne (hhash a ha b hb hsame)
  refine ⟨?_, ?_⟩
  . intro e he
    obtain ⟨content, _, htells⟩ := hfaithful.entries e he
    exact ⟨content, htells⟩
  . intro before t after heq hdirection
    obtain ⟨content, hcontent, ⟨sql, hnewest, hsql⟩, hundo⟩ :=
      hfaithful.rollBacks before t after heq hdirection
    exact ⟨content, sql, hcontent, hnewest, hsql, hundo, mirrors_of_statements hsql hundo⟩

/-- Two tables are created by the first run and dropped by the second one. -/
theorem rollBack_undoes_first_apply :
    let ledger : Path := ascii "ledger.json"
    let content := ascii "model A \x7b id Int\n\x7d\nmodel B \x7b id Int\n\x7d"
    let files : Files := fun path => if path = ascii "m/1.sigl" then some content else none
    let created := [ascii "CREATE TABLE \"A\" (\n  \"id\" INTEGER\n);",
      ascii "CREATE TABLE \"B\" (\n  \"id\" INTEGER\n);"]
    let dropped := [ascii "DROP TABLE IF EXISTS \"B\";", ascii "DROP TABLE IF EXISTS \"A\";"]
    ∃ s, Relation.ReflTransGen (Step .sqlite ledger) ⟨files, [], []⟩ s ∧
      s.transactions = [⟨.apply, ascii "1.sigl", some content, created⟩,
        ⟨.rollBack, ascii "1.sigl", some content, dropped⟩] ∧
      Mirrors .sqlite content created dropped := by
  intro ledger content files created dropped
  let options : Options := ⟨ascii "m", ledger, ⟨false, 0, 0⟩, ⟨0, 0⟩, ⟨1, 0⟩⟩
  obtain ⟨first, second, hfirst, hsecond, hok, hok', hcontents, htransactions⟩ :
      ∃ (first : Except Failure Applied × Chronicle)
        (second : Except Failure RolledBack × Chronicle),
        play options (ascii "1.sigl") (up .sqlite ledger) ⟨files, [], []⟩ = first ∧
        play options (ascii "1.sigl") (down .sqlite ledger) first.2 = second ∧
        first.1.isOk ∧ second.1.isOk ∧ second.2.contents = [content, content] ∧
        second.2.transactions = [⟨.apply, ascii "1.sigl", some content, created⟩,
          ⟨.rollBack, ascii "1.sigl", some content, dropped⟩] :=
    ⟨_, _, rfl, rfl, by decide +kernel⟩
  have hup : Step .sqlite ledger ⟨files, [], []⟩ first.2 :=
    .up rfl (hfirst ▸ exec_play options _ _ _) (not_endsInconsistent hok)
  have hdown : Step .sqlite ledger first.2 second.2 :=
    .down rfl (hsecond ▸ exec_play options _ _ _) (not_endsInconsistent hok')
  have hruns := (Relation.ReflTransGen.single hup).tail hdown
  have hhash : ∀ a ∈ second.2.contents, ∀ b ∈ second.2.contents,
      contentHash a = contentHash b → a = b := by
    simp [hcontents]
  obtain ⟨_, hundoes⟩ := rollBack_undoes_newest_apply ⟨rfl, rfl⟩ hruns hhash
  obtain ⟨read, sql, hread, hnewest, _, _, hmirrors⟩ := hundoes [_] _ [] htransactions rfl
  cases hread
  cases hnewest
  exact ⟨second.2, hruns, htransactions, hmirrors⟩

end Chronicle

end SchemaMigration.Run
