import Mathlib.Data.List.Nodup
import SchemaMigration.Proofs.Basic
import SchemaMigration.Proofs.Ledger.NewestBatch
import SchemaMigration.Proofs.Run.Station

/-!
This module contains the course of a run: what it reads, the transactions that it commits, and the
one update of the ledger that follows them. This is all that others need to know about a run,
whatever replies its requests get.
-/

namespace SchemaMigration.Run

open Program (Ensures)

/--
What a run has read and done so far. The last field says whether the update of the ledger succeeded,
once it was tried.
-/
structure Course where
  entries : List Ledger.Entry
  files : List MigrationFile
  committed : List Text
  updated? : Option Bool

namespace Course

def initial : Course := ⟨[], [], [], none⟩

def after (c : Course) : (r : Request) → Reply r → Course
  | .load, .ok s => { c with entries := s.entries }
  | .loadFiles, .ok files => { c with files }
  | .transaction _ file _, .ok () => { c with committed := c.committed ++ [file] }
  | .record _, reply => { c with updated? := some reply.isOk }
  | .remove _, reply => { c with updated? := some reply.isOk }
  | _, _ => c

/--
A file that a run is to treat is as it was read. One that is to be rolled back is also as it is
recorded.
-/
structure Due (direction : Direction) (c : Course) (file : MigrationFile) : Prop where
  found : MigrationFile.find? c.files file.name = some file
  recorded : direction = .rollBack → ∃ e ∈ c.entries, e.file = file.name ∧ e.hash = file.hash

/-- A run treats no file twice that it rolls back, if the ledger does not name one twice. -/
def Distinct (direction : Direction) (c : Course) (names : List Text) : Prop :=
  direction = .rollBack → (c.entries.map (·.file)).Nodup → (c.committed ++ names).Nodup

/--
The requests of a run in a direction. It reads before its first transaction, and behind its last one
it updates the ledger once, with the files that it committed.
-/
def server (dialect : Sql.Dialect) (direction : Direction) : Server Access Course where
  Admits
    | .load, c | .loadFiles, c => c.committed = [] ∧ c.updated? = none
    | .transaction direction' name sql, c =>
      direction' = direction ∧ c.updated? = none ∧ Distinct direction c [name] ∧
        ∃ file, Due direction c file ∧ file.name = name ∧
          statements dialect direction file = .ok sql
    | .record files, c =>
      direction = .apply ∧ c.updated? = none ∧ c.committed ≠ [] ∧
        files.map (·.name) = c.committed ∧ ∀ file ∈ files, Due .apply c file
    | .remove files, c =>
      direction = .rollBack ∧ c.updated? = none ∧ c.committed ≠ [] ∧ files = c.committed
    | _, _ => True
  Serves r c reply c' := c' = c.after r reply

/-- How a run ends. What it committed is in the ledger, or else the outcome names it. -/
inductive Ends {α : Type} (direction : Direction) (ledger : Path) :
    Except Failure α → Course → Prop
  | idle {outcome : Except Failure α} {c : Course} (hcommitted : c.committed = [])
    (hupdated : c.updated? = none) : Ends direction ledger outcome c
  | updated {outcome : Except Failure α} {c : Course} (hupdated : c.updated? = some true) :
    Ends direction ledger outcome c
  | inconsistent {c : Course} (hupdated : c.updated? = some false) (cause : Failure) :
    Ends direction ledger (.error (.inconsistent direction ledger c.committed cause)) c

def Settled (c : Course) : Prop :=
  (c.committed = [] ∧ c.updated? = none) ∨ c.updated? = some true

def ofStation {direction : Direction} : Station direction → Course
  | .start => initial
  | .loaded state => ⟨state.entries, [], [], none⟩
  | .opened state read => ⟨state.entries, read, [], none⟩
  | .halted entries read _ => ⟨entries, read, [], none⟩
  | .busy plan phase =>
    ⟨plan.state.entries, plan.read, phase.done.map (·.name), phase.reply?.map (·.isOk)⟩

variable {α : Type} {dialect : Sql.Dialect} {direction : Direction} {ledger : Path}
  {files : List MigrationFile}

theorem require_ok {name : Text} {file : MigrationFile}
    (h : require files direction name = .ok file) :
    file.name = name ∧ MigrationFile.find? files file.name = some file := by
  unfold require at h
  split at h
  . next found hfound =>
    cases h
    have hname : file.name = name := by simpa using List.find?_some hfound
    rw [hname]
    exact ⟨rfl, hfound⟩
  . cases h

theorem requireUnmodified_ok {e : Ledger.Entry} {file : MigrationFile}
    (h : requireUnmodified files e = .ok file) :
    file.name = e.file ∧ MigrationFile.find? files file.name = some file ∧ file.hash = e.hash := by
  unfold requireUnmodified at h
  obtain ⟨found, hfound, h⟩ := bind_eq_ok.mp h
  split at h
  . next hhash =>
    cases h
    obtain ⟨hname, hfind⟩ := require_ok hfound
    exact ⟨hname, hfind, by simpa using hhash⟩
  . cases h

theorem names_of_requireUnmodified {entries : List Ledger.Entry} {batchFiles : List MigrationFile}
    (h : entries.mapM (requireUnmodified files) = .ok batchFiles) :
    batchFiles.map (·.name) = entries.map (·.file) := by
  have hforall := forall₂_of_mapM_ok h
  clear h
  induction hforall with
  | nil => rfl
  | cons hfirst _ ih =>
    rw [List.map_cons, List.map_cons, (requireUnmodified_ok hfirst).1, ih]

/-- The files of a plan are as they were read, and as they are recorded if they are rolled back. -/
theorem due_of_mem_plan {plan : Plan direction} {file : MigrationFile} (hfile : file ∈ plan.files)
    {committed : List Text} {updated? : Option Bool} :
    Due direction ⟨plan.state.entries, plan.read, committed, updated?⟩ file := by
  have hagenda := agenda_of_prepare plan.prepared
  cases direction with
  | apply =>
    obtain ⟨name, _, hrequire⟩ := exists_of_mem_forall₂ (forall₂_of_mapM_ok hagenda) hfile
    exact ⟨(require_ok hrequire).2, nofun⟩
  | rollBack =>
    obtain ⟨e, he, hrequire⟩ := exists_of_mem_forall₂ (forall₂_of_mapM_ok hagenda) hfile
    obtain ⟨hname, hfind, hhash⟩ := requireUnmodified_ok hrequire
    have hentry := List.mem_reverse.mp (plan.state.lastBatch_sublist.subset he)
    exact ⟨hfind, fun _ => ⟨e, hentry, hname.symm, hhash.symm⟩⟩

theorem distinct_of_plan {plan : Plan direction} {done rest : List MigrationFile}
    {file : MigrationFile} (hfiles : plan.files = done ++ file :: rest) {updated? : Option Bool} :
    Distinct direction ⟨plan.state.entries, plan.read, done.map (·.name), updated?⟩
      [file.name] := by
  rintro rfl hnodup
  have hnames : (plan.files.map (·.name)).Nodup := by
    rw [names_of_requireUnmodified (agenda_of_prepare plan.prepared)]
    apply (plan.state.lastBatch_sublist.map _).nodup
    rw [List.map_reverse, List.nodup_reverse]
    exact hnodup
  rw [hfiles, List.append_cons, List.map_append, List.map_append] at hnames
  exact hnames.of_append_left

/-- Whatever the replies are, the course of a run is that of its stations. -/
theorem after_ofStation {station station' : Station direction} {r : Request} {reply : Reply r}
    (h : Station.Step dialect station r reply station') :
    (ofStation station).after r reply = ofStation station' := by
  cases h with
  | @transaction _ plan done rest file h sql =>
    change Course.mk _ _ (done.map (·.name) ++ [file.name]) _ =
      Course.mk _ _ ((done ++ [file]).map (·.name)) _
    rw [List.map_append]
    rfl
  | disconnect hleaves =>
    cases hleaves with
    | failed | unreadable | finished => rfl
  | _ => rfl

theorem admits_ofStation {station station' : Station direction} {r : Request} {reply : Reply r}
    (h : Station.Step dialect station r reply station') :
    (server dialect direction).Admits r (ofStation station) := by
  cases h with
  | load | loadFailed | loadFiles | loadFilesFailed => exact ⟨rfl, rfl⟩
  | @transaction _ plan done rest file h sql hsql
  | @transactionFailed _ plan done rest file h sql hsql =>
    have hfile : file ∈ plan.files := by simp [h]
    exact ⟨rfl, rfl, distinct_of_plan h, file, due_of_mem_plan hfile, rfl, hsql⟩
  | @record plan progress rest h hne =>
    refine ⟨rfl, rfl, mt List.map_eq_nil_iff.mp hne, rfl, fun file hfile => ?_⟩
    apply due_of_mem_plan
    rw [h.files_eq]
    exact List.mem_append_left _ hfile
  | remove hne => exact ⟨rfl, rfl, mt List.map_eq_nil_iff.mp hne, rfl⟩
  | _ => trivial

theorem accompanies (dialect : Sql.Dialect) (direction : Direction) :
    Accompanies dialect (server dialect direction)
      fun (station : Station direction) c => c = ofStation station where
  admits := by
    rintro station r reply station' _ hstep rfl
    exact admits_ofStation hstep
  serves := by
    rintro station r reply station' _ _ hstep rfl rfl
    exact after_ofStation hstep

theorem ends_ofStation {results : Results α direction} {outcome : Except Failure α}
    {station : Station direction} (h : station.Ends results ledger outcome) :
    Ends direction ledger outcome (ofStation station) := by
  cases h with
  | halted | refused | idle => exact .idle rfl rfl
  | stopped hnone => exact .idle (List.map_eq_nil_iff.mpr hnone) rfl
  | told => exact .updated rfl
  | @inconsistent plan progress rest h hne cause =>
    exact .inconsistent (c := ofStation (.busy plan (.updated h hne (.error cause)))) rfl cause

theorem ensures_of_stations {results : Results α direction} {p : Program Access Failure α}
    (h : Ensures (Station.server dialect direction) p .start (Station.Ends results ledger)) :
    Ensures (server dialect direction) p initial (Ends direction ledger) := by
  apply ((accompanies dialect direction).ensures h rfl).mono
  rintro outcome _ ⟨station, rfl, hends⟩
  exact ends_ofStation hends

theorem up_ensures (dialect : Sql.Dialect) (ledger : Path) :
    Ensures (server dialect .apply) (up dialect ledger) initial (Ends .apply ledger) :=
  ensures_of_stations (Station.up_ends dialect ledger)

theorem down_ensures (dialect : Sql.Dialect) (ledger : Path) :
    Ensures (server dialect .rollBack) (down dialect ledger) initial (Ends .rollBack ledger) :=
  ensures_of_stations (Station.down_ends dialect ledger)

end Course

end SchemaMigration.Run
