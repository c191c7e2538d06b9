import Mathlib.Data.List.Forall2
import SchemaMigration.Proofs.Ledger.Trail
import SchemaMigration.Proofs.Run.Agreement

/-!
This module contains what a run does to the ledger, the database and the log, request by request:
each transaction that is committed is told, and behind the last one the ledger is told of all.
-/

namespace SchemaMigration

theorem Direction.action_apart (direction : Direction) {other : Text}
    (h : other ∈ [ascii "ledger.record", ascii "ledger.remove", ascii "lease.takeover"]) :
    Log.Apart (Log.actionMark direction.action) (Log.actionMark other) := by
  have hall : ∀ direction ∈ [Direction.apply, .rollBack],
      ∀ other ∈ [ascii "ledger.record", ascii "ledger.remove", ascii "lease.takeover"],
        Log.Apart (Log.actionMark direction.action) (Log.actionMark other) := by
    decide
  exact hall direction (by cases direction <;> decide) other h

theorem Direction.action_apart_of_ne {direction other : Direction} (h : direction ≠ other) :
    Log.Apart (Log.actionMark direction.action) (Log.actionMark other.action) := by
  cases direction with
  | apply =>
    cases other with
    | apply => exact absurd rfl h
    | rollBack => decide
  | rollBack =>
    cases other with
    | apply => decide
    | rollBack => exact absurd rfl h

def Direction.numberKey : Direction → Text
  | apply => ascii " statements="
  | rollBack => ascii " batch="

namespace Run

open Program (Ensures)

def toldTreated (dialect : Sql.Dialect) (direction : Direction) (file : Text) (number : Int) :
    Text :=
  ascii "file=" ++ file ++ ascii " dialect=" ++ dialect.name ++ direction.numberKey ++
    Text.ofInt number

structure Tally where
  entries : List Ledger.Entry
  records : List Log.Record
  history : History

namespace Tally

def note (t : Tally) (records : List Log.Record) : Tally :=
  { t with records := t.records ++ Log.trail records }

def record (t : Tally) (files : List MigrationFile) (appliedAt : Text) (batch : Int) : Tally :=
  { t with
    entries := t.entries ++ files.map fun f => ⟨f.name, f.hash, appliedAt, batch⟩
    records := t.records ++ files.map (Ledger.recordedRecord batch ·.name) }

def remove (t : Tally) (files : List Text) : Tally :=
  { t with
    entries := t.entries.filter (!files.contains ·.file)
    records := t.records ++ ((t.entries.filter (files.contains ·.file)).map (·.file)).map
      Ledger.removedRecord }

def server : Server Access Tally where
  Admits _ _ := True
  Serves
    | .load, t, reply, t' => t' = t ∧ ∀ s, reply = .ok s → s.entries = t.entries ∧ s.files.Nodup
    | .record files, t, .ok s, t' =>
      ∃ appliedAt, Fresh id (t.entries.map (·.file)) (files.map (·.name)) ∧
        t' = t.record files appliedAt s.currentBatch
    | .remove files, t, .ok _, t' => t' = t.remove files
    | .transaction direction file _, t, .ok (), t' =>
      t' = { t with history := t.history ++ [⟨direction, file⟩] }
    | .log entry, t, _, t' => ∃ records, entry.MayWrite records ∧ t' = t.note records
    | _, t, _, t' => t' = t

def Notes (dialect : Sql.Dialect) (direction : Direction) (file : MigrationFile)
    (r : Log.Record) : Prop :=
  ∃ number, r = ⟨.info,
    Log.actionMark direction.action ++ toldTreated dialect direction file.name number⟩

/-- A tally behind the transactions of the files `done`, of which `told` have been told. -/
structure Treated (dialect : Sql.Dialect) (direction : Direction) (entries : List Ledger.Entry)
    (told done : List MigrationFile) (t : Tally) : Prop where
  entries : t.entries = entries
  history : t.history = done.map fun file => ⟨direction, file.name⟩
  records : List.Forall₂ (Notes dialect direction) told t.records

variable {α : Type} {dialect : Sql.Dialect} {direction : Direction} {ledger : Path}
  {entries : List Ledger.Entry} {done : List MigrationFile} {t t' : Tally}

theorem treated_nil (dialect : Sql.Dialect) (direction : Direction) (entries : List Ledger.Entry) :
    Treated dialect direction entries [] [] ⟨entries, [], []⟩ :=
  ⟨rfl, rfl, .nil⟩

theorem notes_audit {plan : Plan direction} (file : MigrationFile) (sql : List Text) :
    Notes dialect direction file
      (Log.Entry.record (.audit direction.action (auditFields dialect plan file sql))) := by
  have hfile : ascii "file=" = ascii "file" ++ [byte '='] := by decide
  have hdialect : ascii " dialect=" = byte ' ' :: ascii "dialect" ++ [byte '='] := by decide
  unfold auditFields
  cases direction with
  | apply =>
    have hnumber : Direction.apply.numberKey = byte ' ' :: ascii "statements" ++ [byte '='] := by
      decide
    refine ⟨sql.length, ?_⟩
    rw [Log.Entry.record_audit, toldTreated, hfile, hdialect, hnumber]
    simp [Text.join, Log.Field.render, Log.Field.text, Log.Field.int]
  | rollBack =>
    have hnumber : Direction.rollBack.numberKey = byte ' ' :: ascii "batch" ++ [byte '='] := by
      decide
    refine ⟨plan.state.currentBatch, ?_⟩
    rw [Log.Entry.record_audit, toldTreated, hfile, hdialect, hnumber]
    simp [Text.join, Log.Field.render, Log.Field.text, Log.Field.int]

theorem trail_of_notes {file : MigrationFile} {r : Log.Record}
    (h : Notes dialect direction file r) : Log.trail [r] = [r] := by
  have hapart : Log.Apart _ (Log.actionMark (ascii "lease.takeover")) :=
    direction.action_apart (by decide)
  have haside : r.isAside = false := by
    obtain ⟨number, rfl⟩ := h
    exact Log.isAside_eq_false (r := ⟨_, _⟩) rfl ⟨hapart.2, hapart.1⟩
  simp [Log.trail, haside]

/--
A tally behind a run: of the files whose transactions were committed the ledger has been told, or
else the outcome says that it has not.
-/
inductive Concludes (dialect : Sql.Dialect) (entries : List Ledger.Entry) :
    Direction → Except Failure α → Tally → Prop
  | untold {direction : Direction} {outcome : Except Failure α} {done : List MigrationFile}
    {t : Tally} (h : Treated dialect direction entries done done t)
    (hnone : done = [] ∨ EndsInconsistent outcome) :
    Concludes dialect entries direction outcome t
  | recorded {outcome : Except Failure α} {done : List MigrationFile} {t : Tally}
    (h : Treated dialect .apply entries done done t) (appliedAt : Text) (batch : Int)
    (hfresh : Fresh id (entries.map (·.file)) (done.map (·.name))) :
    Concludes dialect entries .apply outcome (t.record done appliedAt batch)
  | removed {outcome : Except Failure α} {done : List MigrationFile} {t : Tally}
    (h : Treated dialect .rollBack entries done done t)
    (hdone : (done.map (·.name)).reverse.Sublist (entries.map (·.file)))
    (hnodup : (entries.map (·.file)).Nodup) :
    Concludes dialect entries .rollBack outcome (t.remove (done.map (·.name)))

def Told (α : Type) (dialect : Sql.Dialect) (entries : List Ledger.Entry) (direction : Direction)
    (t : Tally) : Prop :=
  ∀ outcome : Except Failure α, Concludes dialect entries direction outcome t

def told {files : List MigrationFile} : Phase files → List MigrationFile
  | @Phase.committed _ done _ _ _ _ => done
  | phase => phase.done

def Balance (α : Type) (dialect : Sql.Dialect) (direction : Direction)
    (entries : List Ledger.Entry) {files : List MigrationFile} (phase : Phase files) (t : Tally) :
    Prop :=
  match phase.reply? with
  | none | some (.error _) => Treated dialect direction entries (told phase) phase.done t
  | some (.ok _) => Told α dialect entries direction t

structure Busy (α : Type) (dialect : Sql.Dialect) (entries : List Ledger.Entry)
    (plan : Plan direction) (phase : Phase plan.files) (t : Tally) : Prop where
  loaded : plan.state.entries = entries
  nodup : plan.state.files.Nodup
  balance : Balance α dialect direction entries phase t

def Follows (α : Type) (dialect : Sql.Dialect) (entries : List Ledger.Entry) :
    Station direction → Tally → Prop
  | .start, t | .halted .., t => t = ⟨entries, [], []⟩
  | .loaded state, t | .opened state _, t =>
    t = ⟨entries, [], []⟩ ∧ state.entries = entries ∧ state.files.Nodup
  | .busy plan phase, t => Busy α dialect entries plan phase t

theorem note_of_aside {entry : Log.Entry} (haside : entry.isAside = true)
    (h : server.Serves (.log entry) t () t') : t' = t := by
  obtain ⟨records, hwrite, rfl⟩ := h
  rw [note, Log.trail_of_mayWrite hwrite haside, List.append_nil]

/-- The files that were rolled back stand in the ledger in reverse. -/
theorem reverse_sublist_of_plan {plan : Plan .rollBack} {progress : Progress}
    {rest : List MigrationFile} (h : Reaches plan.files progress rest) :
    (progress.committed.map (·.name)).reverse.Sublist (plan.state.entries.map (·.file)) := by
  rw [← List.reverse_sublist, List.reverse_reverse, ← List.map_reverse]
  apply List.Sublist.trans _ (plan.state.lastBatch_sublist.map _)
  rw [← Course.names_of_requireUnmodified (agenda_of_prepare plan.prepared), h.files_eq]
  exact (List.sublist_append_left _ _).map _

namespace Busy

variable {plan : Plan direction} {phase : Phase plan.files}

/-- A file is committed in a transaction. -/
theorem commit {rest : List MigrationFile} {file : MigrationFile}
    {h : plan.files = done ++ file :: rest} {sql : List Text}
    (hbusy : Busy α dialect entries plan (.treating h) t) :
    Busy α dialect entries plan (.committed h sql)
      { t with history := t.history ++ [⟨direction, file.name⟩] } where
  loaded := hbusy.loaded
  nodup := hbusy.nodup
  balance := by
    have hbalance : Treated dialect direction entries done done t := hbusy.balance
    refine ⟨hbalance.entries, ?_, hbalance.records⟩
    change t.history ++ _ = (done ++ [file]).map _
    rw [hbalance.history, List.map_append]
    rfl

/-- The log is told of a file that was committed. -/
theorem tell {rest : List MigrationFile} {file : MigrationFile}
    {h : plan.files = done ++ file :: rest} {sql : List Text}
    (hbusy : Busy α dialect entries plan (.committed h sql) t) {r : Log.Record}
    (hnotes : Notes dialect direction file r) :
    Busy α dialect entries plan (.treating (h.trans (List.append_cons done file rest)))
      (t.note [r]) where
  loaded := hbusy.loaded
  nodup := hbusy.nodup
  balance := by
    have hbalance : Treated dialect direction entries done (done ++ [file]) t := hbusy.balance
    refine ⟨hbalance.entries, hbalance.history, ?_⟩
    change List.Forall₂ _ (done ++ [file]) (t.records ++ Log.trail [r])
    rw [trail_of_notes hnotes]
    exact List.rel_append hbalance.records (.cons hnotes .nil)

end Busy

theorem accompanies (α : Type) (dialect : Sql.Dialect) (entries : List Ledger.Entry) :
    Accompanies dialect server
      (Follows α dialect entries : Station direction → Tally → Prop) where
  admits _ _ := trivial
  serves := by
    rintro station r reply station' t t' hstep hfollows hserves
    cases hstep with
    | message haside =>
      rw [note_of_aside (Log.Entry.isAside_message haside) hserves]
      exact hfollows
    | load =>
      obtain rfl := hfollows
      obtain ⟨rfl, hload⟩ := hserves
      exact ⟨rfl, hload _ rfl⟩
    | loadFailed => exact hserves.1.trans hfollows
    | loadFiles => exact ⟨Eq.trans hserves hfollows.1, hfollows.2⟩
    | loadFilesFailed | probeFailed => exact Eq.trans hserves hfollows.1
    | probe plan =>
      obtain ⟨rfl, hentries, hnodup⟩ := hfollows
      obtain rfl := hserves
      exact ⟨hentries, hnodup, treated_nil dialect _ entries⟩
    | connect | connectFailed | transactionFailed =>
      obtain rfl := hserves
      exact ⟨hfollows.loaded, hfollows.nodup, hfollows.balance⟩
    | transaction =>
      obtain rfl := hserves
      exact hfollows.commit
    | tell =>
      obtain ⟨_, rfl | ⟨⟨⟩, _⟩, rfl⟩ := hserves
      exact hfollows.tell (notes_audit _ _)
    | disconnect hleaves =>
      obtain rfl := hserves
      refine ⟨hfollows.loaded, hfollows.nodup, ?_⟩
      cases hleaves with
      | failed | unreadable | finished => exact hfollows.balance
    | @record plan progress rest h hne reply =>
      have htreated : Treated dialect .apply entries _ _ t := hfollows.balance
      refine ⟨hfollows.loaded, hfollows.nodup, ?_⟩
      cases reply with
      | error e =>
        obtain rfl := hserves
        exact htreated
      | ok new =>
        obtain ⟨appliedAt, hfresh, rfl⟩ := hserves
        rw [htreated.entries] at hfresh
        exact fun _ => .recorded htreated appliedAt new.currentBatch hfresh
    | @remove plan progress rest h hne reply =>
      have htreated : Treated dialect .rollBack entries _ _ t := hfollows.balance
      refine ⟨hfollows.loaded, hfollows.nodup, ?_⟩
      cases reply with
      | error e =>
        obtain rfl := hserves
        exact htreated
      | ok new =>
        obtain rfl := hserves
        have hdone := reverse_sublist_of_plan h
        have hnodup := hfollows.nodup
        rw [Ledger.State.files, hfollows.loaded] at hnodup
        rw [hfollows.loaded] at hdone
        exact fun _ => .removed htreated hdone hnodup

theorem concludes_of_follows {results : Results α direction} {outcome : Except Failure α}
    {station : Station direction} (hfollows : Follows α dialect entries station t)
    (h : station.Ends results ledger outcome) :
    Concludes dialect entries direction outcome t := by
  have hnone : t = ⟨entries, [], []⟩ → Concludes dialect entries direction outcome t := by
    rintro rfl
    exact .untold (treated_nil dialect direction entries) (.inl rfl)
  cases h with
  | halted => exact hnone hfollows
  | refused | idle => exact hnone hfollows.1
  | stopped hcommitted => exact .untold hfollows.balance (.inl hcommitted)
  | told => exact hfollows.balance _
  | inconsistent => exact .untold hfollows.balance (.inr ⟨_, _, _, _, rfl⟩)

theorem ensures_of_stations {results : Results α direction} {p : Program Access Failure α}
    (h : Ensures (Station.server dialect direction) p .start (Station.Ends results ledger)) :
    Ensures server p ⟨entries, [], []⟩ (Concludes dialect entries direction) := by
  apply ((accompanies α dialect entries).ensures h rfl).mono
  rintro outcome t ⟨station, hfollows, hends⟩
  exact concludes_of_follows hfollows hends

end Tally

end Run

end SchemaMigration
